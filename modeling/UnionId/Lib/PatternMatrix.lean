import Mathlib.Data.List.Forall2

/-!
# Pattern matrices

Patterns over constructors, and the question whether a row of patterns still accepts
some values that a matrix of rows rejects. The answer is computed column by column:
a column whose type has constructors is replaced by the columns of each constructor,
and any other column is dropped. Types, values and constructors are arbitrary; what
is known about them is that the constructors of a type split its values.

## Main definitions

* `Pat κ` — patterns over the constructors `κ`.
* `Covers parts p v` — `p` accepts `v`, where `parts c v` takes `v` apart.
* `Useful` — some typed values are accepted by a query and by no row.
* `Splits` — the constructors of a type split its values.
-/
namespace UnionId.Lib

open List

/-- A pattern: anything, or a constructor with a pattern for each argument. -/
inductive Pat (κ : Type) where
  | wildcard
  | constructor (c : κ) (args : List (Pat κ))

variable {κ τ ν : Type}

mutual
/-- A pattern accepts a value. -/
def Covers (parts : κ → ν → Option (List ν)) : Pat κ → ν → Prop
  | .wildcard, _ => True
  | .constructor c args, v => ∃ vs, parts c v = some vs ∧ CoversAll parts args vs

/-- Patterns accept values, position by position. -/
def CoversAll (parts : κ → ν → Option (List ν)) : List (Pat κ) → List ν → Prop
  | [], [] => True
  | p :: ps, v :: vs => Covers parts p v ∧ CoversAll parts ps vs
  | _, _ => False
end

namespace Pat

def isWildcard : Pat κ → Bool
  | .wildcard => true
  | .constructor _ _ => false

end Pat

/-- The row of a matrix below one constructor; a row with another one has none. -/
def specializeRow [DecidableEq κ] (c : κ) (arity : ℕ) : List (Pat κ) → Option (List (Pat κ))
  | [] => none
  | .wildcard :: tail => some (replicate arity .wildcard ++ tail)
  | .constructor c' args :: tail => if c' = c then some (args ++ tail) else none

def specializeMatrix [DecidableEq κ] (matrix : List (List (Pat κ))) (c : κ) (arity : ℕ) :
    List (List (Pat κ)) := matrix.filterMap (specializeRow c arity)

/-- The row of a matrix without its first column, when that accepts anything. -/
def defaultRow : List (Pat κ) → Option (List (Pat κ))
  | .wildcard :: tail => some tail
  | _ => none

def defaultMatrix (matrix : List (List (Pat κ))) : List (List (Pat κ)) :=
  matrix.filterMap defaultRow

/-- A row of nothing but wildcards. -/
def wildRow (width : ℕ) (row : List (Pat κ)) : Bool :=
  row.length = width && row.all Pat.isWildcard

section
variable {parts : κ → ν → Option (List ν)} {typed : τ → ν → Prop} {vs us : List ν}
  {ps : List (Pat κ)} {v : ν} {s : κ × List τ}

@[simp] theorem coversAll_nil : CoversAll parts [] vs ↔ vs = [] := by
  cases vs <;> simp [CoversAll]

@[simp] theorem coversAll_cons {p : Pat κ} :
    CoversAll parts (p :: ps) (v :: vs) ↔ Covers parts p v ∧ CoversAll parts ps vs := by
  rw [CoversAll]

@[simp] theorem covers_wildcard : Covers parts .wildcard v ↔ True := by
  rw [Covers]

variable {args row : List (Pat κ)}

theorem covers_constructor {c : κ} :
    Covers parts (.constructor c args) v ↔ ∃ vs, parts c v = some vs ∧ CoversAll parts args vs := by
  rw [Covers]

theorem CoversAll.length_eq (h : CoversAll parts ps vs) : ps.length = vs.length := by
  induction ps generalizing vs with
  | nil => simp [coversAll_nil.mp h]
  | cons p ps ih =>
    cases vs with
    | nil => simp [CoversAll] at h
    | cons v vs => simp [ih (coversAll_cons.mp h).2]

theorem coversAll_append {qs : List (Pat κ)} (h : ps.length = us.length) :
    CoversAll parts (ps ++ qs) (us ++ vs) ↔ CoversAll parts ps us ∧ CoversAll parts qs vs := by
  induction ps generalizing us with
  | nil =>
    obtain rfl : us = [] := length_eq_zero_iff.mp h.symm
    simp
  | cons p ps ih =>
    cases us with
    | nil => cases h
    | cons u us =>
      rw [cons_append, cons_append, coversAll_cons, coversAll_cons,
        ih (Nat.succ.inj h), and_assoc]

theorem coversAll_wildcards (h : ps.length = vs.length)
    (hps : ps.all Pat.isWildcard = true) : CoversAll parts ps vs := by
  induction ps generalizing vs with
  | nil => exact coversAll_nil.mpr (length_eq_zero_iff.mp h.symm)
  | cons p ps ih =>
    cases vs with
    | nil => cases h
    | cons v vs =>
      rw [all_cons, Bool.and_eq_true] at hps
      cases p with
      | wildcard => exact coversAll_cons.mpr ⟨covers_wildcard.mpr trivial,
          ih (Nat.succ.inj h) hps.2⟩
      | constructor c args => cases hps.1

theorem coversAll_replicate {n : ℕ} :
    CoversAll parts (replicate n .wildcard) vs ↔ vs.length = n := by
  refine ⟨fun h => by simpa using h.length_eq.symm, fun h => coversAll_wildcards (by simp [h]) ?_⟩
  simp [Pat.isWildcard]

/-- Some typed values are accepted by the query and by no row of the matrix. -/
def Useful (parts : κ → ν → Option (List ν)) (typed : τ → ν → Prop) (matrix : List (List (Pat κ)))
    (query : List (Pat κ)) (types : List τ) : Prop :=
  ∃ vs, Forall₂ typed types vs ∧ CoversAll parts query vs ∧
    ∀ row ∈ matrix, ¬CoversAll parts row vs

/-- The constructors of a type split its values: every value is taken apart by exactly
one of them, into typed arguments, and typed arguments can be put together. -/
structure Splits (parts : κ → ν → Option (List ν)) (typed : τ → ν → Prop) (t : τ)
    (specs : List (κ × List τ)) : Prop where
  split : ∀ v, typed t v → ∃ s ∈ specs, ∃ vs, parts s.1 v = some vs ∧ Forall₂ typed s.2 vs
  build : ∀ s ∈ specs, ∀ vs, Forall₂ typed s.2 vs → ∃ v, typed t v ∧ parts s.1 v = some vs
  disjoint : ∀ v, typed t v → ∀ s ∈ specs, ∀ s' ∈ specs, parts s.1 v ≠ none →
    parts s'.1 v ≠ none → s = s'
  distinct : ∀ s ∈ specs, ∀ s' ∈ specs, s.1 = s'.1 → s = s'

/-- The head of a row belongs to the type of its column. -/
def HeadFits (specs : List (κ × List τ)) : List (Pat κ) → Prop
  | .constructor c args :: _ => ∃ s ∈ specs, s.1 = c ∧ args.length = s.2.length
  | .wildcard :: _ => True
  | [] => False

variable {t : τ} {types : List τ} {specs : List (κ × List τ)} {matrix : List (List (Pat κ))}
  {query : List (Pat κ)}

section
variable (h : Splits parts typed t specs)
include h

/-- The arguments of a value under its own constructor are typed. -/
theorem Splits.typed_parts (hv : typed t v) (hs : s ∈ specs) (hparts : parts s.1 v = some vs) :
    Forall₂ typed s.2 vs := by
  obtain ⟨s', hs', us, hus, htyped⟩ := h.split v hv
  obtain rfl := h.disjoint v hv s hs s' hs' (by simp [hparts]) (by simp [hus])
  obtain rfl : us = vs := Option.some.inj (hus.symm.trans hparts)
  exact htyped

variable [DecidableEq κ]

/-- A row accepts a value exactly when its specialised row accepts the arguments. -/
theorem specializeRow_covers (hv : typed t v) (hs : s ∈ specs) (hparts : parts s.1 v = some us)
    (hrow : HeadFits specs row) :
    CoversAll parts row (v :: vs) ↔
      ∃ row', specializeRow s.1 s.2.length row = some row' ∧ CoversAll parts row' (us ++ vs) := by
  have hlen := (h.typed_parts hv hs hparts).length_eq
  match row, hrow with
  | .wildcard :: tail, _ =>
    simp only [specializeRow, Option.some.injEq, exists_eq_left', coversAll_cons, covers_wildcard,
      true_and]
    rw [coversAll_append (by simpa using hlen), coversAll_replicate]
    exact ⟨fun h => ⟨hlen.symm, h⟩, fun h => h.2⟩
  | .constructor c args :: tail, ⟨s', hs', hc, hargs⟩ =>
    by_cases heq : c = s.1
    · obtain rfl := h.distinct s' hs' s hs (hc.trans heq)
      simp only [specializeRow, heq, if_true, Option.some.injEq, exists_eq_left', coversAll_cons,
        covers_constructor, hparts]
      rw [coversAll_append (hargs.trans hlen)]
    · simp only [specializeRow, heq, if_false, reduceCtorEq, false_and, exists_false, iff_false,
        coversAll_cons, covers_constructor, not_and]
      rintro ⟨ws, hws, -⟩
      have := h.disjoint v hv s hs s' hs' (by simp [hparts]) (by simp [hc, hws])
      exact absurd (hc.symm.trans (this ▸ rfl)) heq

/-- What a matrix rejects is what its specialisation rejects. -/
theorem specializeMatrix_covers (hv : typed t v) (hs : s ∈ specs) (hparts : parts s.1 v = some us)
    (hmatrix : ∀ row ∈ matrix, HeadFits specs row) :
    (∀ row ∈ matrix, ¬CoversAll parts row (v :: vs)) ↔
      ∀ row ∈ specializeMatrix matrix s.1 s.2.length, ¬CoversAll parts row (us ++ vs) := by
  constructor
  · intro hrows row' hrow' hcovers
    obtain ⟨row, hrow, hspec⟩ := mem_filterMap.mp hrow'
    exact hrows row hrow
      ((specializeRow_covers h hv hs hparts (hmatrix row hrow)).mpr ⟨row', hspec, hcovers⟩)
  · intro hrows row hrow hcovers
    obtain ⟨row', hspec, hcovers⟩ :=
      (specializeRow_covers h hv hs hparts (hmatrix row hrow)).mp hcovers
    exact hrows row' (mem_filterMap.mpr ⟨row, hrow, hspec⟩) hcovers

omit h in
omit [DecidableEq κ] in
theorem forall₂_of_append {ts us : List τ} {all : List ν} (h : Forall₂ typed (ts ++ us) all) :
    ∃ vs ws, Forall₂ typed ts vs ∧ Forall₂ typed us ws ∧ all = vs ++ ws := by
  induction ts generalizing all with
  | nil => exact ⟨[], all, .nil, h, rfl⟩
  | cons t ts ih =>
    obtain ⟨v, rest, hv, hrest, rfl⟩ := forall₂_cons_left_iff.mp h
    obtain ⟨vs, ws, hvs, hws, rfl⟩ := ih hrest
    exact ⟨v :: vs, ws, .cons hv hvs, hws, rfl⟩

/-- **A constructor in the query**: its arguments become columns. -/
theorem useful_constructor (hs : s ∈ specs) (hargs : args.length = s.2.length)
    (hmatrix : ∀ row ∈ matrix, HeadFits specs row) :
    Useful parts typed matrix (.constructor s.1 args :: query) (t :: types) ↔
      Useful parts typed (specializeMatrix matrix s.1 s.2.length) (args ++ query)
        (s.2 ++ types) := by
  constructor
  · rintro ⟨all, htyped, hquery, hrows⟩
    obtain ⟨v, vs, hv, hvs, rfl⟩ := forall₂_cons_left_iff.mp htyped
    obtain ⟨⟨us, hus, hargs'⟩, hquery⟩ := (coversAll_cons.trans
      (and_congr_left' covers_constructor)).mp hquery
    have htyped := h.typed_parts hv hs hus
    exact ⟨us ++ vs, rel_append htyped hvs,
      (coversAll_append (hargs.trans htyped.length_eq)).mpr ⟨hargs', hquery⟩,
      (specializeMatrix_covers h hv hs hus hmatrix).mp hrows⟩
  · rintro ⟨all, htyped, hquery, hrows⟩
    obtain ⟨us, vs, hus, hvs, rfl⟩ := forall₂_of_append htyped
    obtain ⟨v, hv, hparts⟩ := h.build s hs us hus
    obtain ⟨hargs', hquery⟩ := (coversAll_append (hargs.trans hus.length_eq)).mp hquery
    exact ⟨v :: vs, .cons hv hvs, coversAll_cons.mpr
      ⟨covers_constructor.mpr ⟨us, hparts, hargs'⟩, hquery⟩,
      (specializeMatrix_covers h hv hs hparts hmatrix).mpr hrows⟩

/-- **A wildcard in the query**: some constructor gives values. -/
theorem useful_wildcard (hmatrix : ∀ row ∈ matrix, HeadFits specs row) :
    Useful parts typed matrix (.wildcard :: query) (t :: types) ↔
      ∃ s ∈ specs, Useful parts typed (specializeMatrix matrix s.1 s.2.length)
        (replicate s.2.length .wildcard ++ query) (s.2 ++ types) := by
  constructor
  · rintro ⟨all, htyped, hquery, hrows⟩
    obtain ⟨v, vs, hv, hvs, rfl⟩ := forall₂_cons_left_iff.mp htyped
    obtain ⟨s, hs, us, hus, -⟩ := h.split v hv
    refine ⟨s, hs, (useful_constructor h hs (by simp) hmatrix).mp
      ⟨v :: vs, .cons hv hvs, ?_, hrows⟩⟩
    have hlen := (h.typed_parts hv hs hus).length_eq
    exact coversAll_cons.mpr ⟨covers_constructor.mpr ⟨us, hus, coversAll_replicate.mpr hlen.symm⟩,
      (coversAll_cons.mp hquery).2⟩
  · rintro ⟨s, hs, huseful⟩
    obtain ⟨vs, htyped, hquery, hrows⟩ := (useful_constructor h hs (by simp) hmatrix).mpr huseful
    obtain ⟨v, vs, hv, hvs, rfl⟩ := forall₂_cons_left_iff.mp htyped
    exact ⟨v :: vs, .cons hv hvs, coversAll_cons.mpr ⟨covers_wildcard.mpr trivial,
      (coversAll_cons.mp hquery).2⟩, hrows⟩

omit [DecidableEq κ]

end

/-- **A column without constructors** is dropped. -/
theorem useful_default (hinhabited : ∃ v, typed t v)
    (hmatrix : ∀ row ∈ matrix, ∃ tail, row = .wildcard :: tail) :
    Useful parts typed matrix (.wildcard :: query) (t :: types) ↔
      Useful parts typed (defaultMatrix matrix) query types := by
  have hrow : ∀ v vs, (∀ row ∈ matrix, ¬CoversAll parts row (v :: vs)) ↔
      ∀ row ∈ defaultMatrix matrix, ¬CoversAll parts row vs := by
    intro v vs
    constructor
    · intro h row' hrow' hcovers
      obtain ⟨row, hrow, hdefault⟩ := mem_filterMap.mp hrow'
      obtain ⟨tail, rfl⟩ := hmatrix row hrow
      cases hdefault
      exact h _ hrow (coversAll_cons.mpr ⟨covers_wildcard.mpr trivial, hcovers⟩)
    · intro h row hrow hcovers
      obtain ⟨tail, rfl⟩ := hmatrix row hrow
      exact h tail (mem_filterMap.mpr ⟨_, hrow, rfl⟩) (coversAll_cons.mp hcovers).2
  constructor
  · rintro ⟨all, htyped, hquery, hrows⟩
    obtain ⟨v, vs, hv, hvs, rfl⟩ := forall₂_cons_left_iff.mp htyped
    exact ⟨vs, hvs, (coversAll_cons.mp hquery).2, (hrow v vs).mp hrows⟩
  · rintro ⟨vs, hvs, hquery, hrows⟩
    obtain ⟨v, hv⟩ := hinhabited
    exact ⟨v :: vs, .cons hv hvs, coversAll_cons.mpr ⟨covers_wildcard.mpr trivial, hquery⟩,
      (hrow v vs).mpr hrows⟩

/-- A row of wildcards accepts everything. -/
theorem not_useful_of_wildRow (hrow : row ∈ matrix)
    (hwild : wildRow types.length row = true) : ¬Useful parts typed matrix query types := by
  rintro ⟨vs, hvs, -, hrows⟩
  simp only [wildRow, Bool.and_eq_true, decide_eq_true_eq] at hwild
  exact hrows row hrow (coversAll_wildcards (hwild.1.trans hvs.length_eq) hwild.2)

/-- Without columns, only an empty matrix rejects. -/
theorem useful_nil (hmatrix : ∀ row ∈ matrix, row = []) :
    Useful parts typed matrix [] ([] : List τ) ↔ matrix = [] := by
  constructor
  · rintro ⟨vs, htyped, -, hrows⟩
    obtain rfl := forall₂_nil_left_iff.mp htyped
    refine eq_nil_iff_forall_not_mem.mpr fun row hrow => hrows row hrow ?_
    rw [hmatrix row hrow]
    exact coversAll_nil.mpr rfl
  · rintro rfl
    exact ⟨[], .nil, coversAll_nil.mpr rfl, by simp⟩

end
end UnionId.Lib
