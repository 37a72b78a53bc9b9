import Mathlib.Data.List.Induction
import Std.Data.ExtTreeMap

/-!
# Membership by hash buckets

A scan that keeps one row for each class of equal rows can look up the rows kept so far in
buckets of positions, filed under a hash. Whatever the hash is, as long as equal rows share
it the buckets answer exactly whether an equal row was filed; collisions only cost time.

## Main results

* `Files.holds_eq` — the buckets decide membership.
* `foldl_keep` — the scan keeps the first occurrences.
-/
namespace UnionId.Lib

open List

open Std (ExtTreeMap TransOrd LawfulEqOrd)

variable {α η : Type}

/-! ## First occurrences -/

/-- The elements that have no equal element among the earlier ones. -/
def firstsFrom (eq : α → α → Bool) (earlier : List α) : List α → List α
  | [] => []
  | a :: l => (if earlier.any (eq a) then [] else [a]) ++ firstsFrom eq (earlier ++ [a]) l

/-- The elements that have no equal element before them. -/
def firsts (eq : α → α → Bool) (l : List α) : List α := firstsFrom eq [] l

/-- Every earlier element is kept, or equal to one that is. -/
def StandsFor (eq : α → α → Bool) (kept earlier : List α) : Prop :=
  ∀ e ∈ earlier, e ∈ kept ∨ kept.any (eq e) = true

section
variable {eq : α → α → Bool} {kept earlier : List α}

/-- To look among the kept elements is to look among all earlier ones. -/
theorem StandsFor.any_eq (htrans : ∀ a b c, eq a b = true → eq b c = true → eq a c = true)
    (hsub : ∀ k ∈ kept, k ∈ earlier) (h : StandsFor eq kept earlier) (a : α) :
    kept.any (eq a) = earlier.any (eq a) := by
  rw [Bool.eq_iff_iff, any_eq_true, any_eq_true]
  constructor
  · rintro ⟨k, hk, heq⟩
    exact ⟨k, hsub k hk, heq⟩
  · rintro ⟨e, he, heq⟩
    rcases h e he with hkept | hkept
    · exact ⟨e, hkept, heq⟩
    · obtain ⟨k, hk, hek⟩ := any_eq_true.mp hkept
      exact ⟨k, hk, htrans a e k heq hek⟩

theorem StandsFor.push (h : StandsFor eq kept earlier) (a : α) :
    StandsFor eq (kept ++ if kept.any (eq a) then [] else [a]) (earlier ++ [a]) := by
  intro e he
  by_cases ha : kept.any (eq a) = true
  · rw [if_pos ha, append_nil]
    rcases mem_append.mp he with he | he
    · exact h e he
    · rw [mem_singleton.mp he]
      exact .inr ha
  · rw [if_neg ha]
    rcases mem_append.mp he with he | he
    · rcases h e he with hkept | hkept
      · exact .inl (mem_append_left _ hkept)
      · exact .inr (by rw [any_append, hkept, Bool.true_or])
    · exact .inl (mem_append_right _ he)

end

/-! ## Buckets -/

variable [Ord η] [TransOrd η] [LawfulEqOrd η]

/-- Positions of a list, filed under a hash. -/
abbrev Buckets (η : Type) [Ord η] := ExtTreeMap η (List ℕ)

namespace Buckets

def add (buckets : Buckets η) (hash : η) (position : ℕ) : Buckets η :=
  buckets.insert hash (buckets[hash]?.getD [] ++ [position])

/-- Whether an equal row is filed under the hash. -/
def holds (buckets : Buckets η) (eq : α → α → Bool) (rows : List α) (needle : α)
    (hash : η) : Bool :=
  (buckets[hash]?.getD []).any fun position => (rows[position]?).any (eq needle)

def ofRows (hash : α → η) (rows : List α) : Buckets η :=
  rows.zipIdx.foldl (fun buckets entry => buckets.add (hash entry.1) entry.2) ∅

end Buckets

/-- Every row is filed under its hash, and nothing else is. -/
def Files (hash : α → η) (rows : List α) (buckets : Buckets η) : Prop :=
  ∀ (h : η) (position : ℕ),
    position ∈ (buckets[h]?.getD []) ↔ (rows[position]?).map hash = some h

section
variable {hash : α → η} {rows : List α} {buckets : Buckets η}

omit [LawfulEqOrd η] in
theorem files_empty (hash : α → η) : Files hash [] (∅ : Buckets η) := by
  intro h position
  simp

theorem Files.push (hf : Files hash rows buckets) (row : α) :
    Files hash (rows ++ [row]) (buckets.add (hash row) rows.length) := by
  intro h position
  have hold := hf h position
  rw [Buckets.add, ExtTreeMap.getElem?_insert]
  by_cases hh : hash row = h
  · subst hh
    rw [if_pos Std.ReflOrd.compare_self, Option.getD_some, mem_append, hold,
      mem_singleton, getElem?_append]
    by_cases hlt : position < rows.length
    · have hne : position ≠ rows.length := by omega
      simp [hlt, hne]
    · rw [if_neg hlt, getElem?_eq_none (by omega)]
      by_cases heq : position = rows.length
      · simp [heq]
      · have hne : position - rows.length ≠ 0 := by omega
        simp [heq, hne]
  · have hcompare : ¬ compare (hash row) h = .eq := by simpa using hh
    rw [if_neg hcompare, hold, getElem?_append]
    by_cases hlt : position < rows.length
    · rw [if_pos hlt]
    · rw [if_neg hlt, getElem?_eq_none (by omega)]
      by_cases heq : position - rows.length = 0
      · simp [heq, hh]
      · simp [heq]

theorem files_ofRows (hash : α → η) (rows : List α) :
    Files hash rows (Buckets.ofRows hash rows) := by
  induction rows using List.reverseRecOn with
  | nil => exact files_empty hash
  | append_singleton rows row ih =>
    rw [Buckets.ofRows, zipIdx_append, foldl_append, Nat.zero_add]
    exact ih.push row

omit [LawfulEqOrd η] in
/-- **The buckets decide membership**, if equal rows share their hash. -/
theorem Files.holds_eq (hf : Files hash rows buckets) {eq : α → α → Bool} {needle : α}
    (heq : ∀ row ∈ rows, eq needle row = true → hash needle = hash row) :
    buckets.holds eq rows needle (hash needle) = rows.any (eq needle) := by
  rw [Bool.eq_iff_iff, Buckets.holds, any_eq_true, any_eq_true]
  constructor
  · rintro ⟨position, -, hany⟩
    cases hrow : rows[position]? with
    | none => simp [hrow] at hany
    | some row => exact ⟨row, mem_of_getElem? hrow, by simpa [hrow] using hany⟩
  · rintro ⟨row, hrow, hequal⟩
    obtain ⟨position, hposition⟩ := mem_iff_getElem?.mp hrow
    refine ⟨position, (hf _ position).mpr ?_, ?_⟩
    · rw [hposition, Option.map_some, heq row hrow hequal]
    · simpa [hposition] using hequal

end

/-! ## The scan -/

/-- Rows kept so far, with their buckets. -/
structure Kept (α η : Type) [Ord η] where
  rows : List α
  buckets : Buckets η

/-- Keep a row unless an equal one is kept. -/
def Kept.keep (eq : α → α → Bool) (hash : α → η) (kept : Kept α η) (row : α) : Kept α η :=
  if kept.buckets.holds eq kept.rows row (hash row) then kept
  else ⟨kept.rows ++ [row], kept.buckets.add (hash row) kept.rows.length⟩

variable {eq : α → α → Bool} {hash : α → η}

theorem Kept.keep_rows {kept : Kept α η} {row : α} (hf : Files hash kept.rows kept.buckets)
    (heq : ∀ r ∈ kept.rows, eq row r = true → hash row = hash r) :
    (kept.keep eq hash row).rows = (kept.rows ++ if kept.rows.any (eq row) then [] else [row]) ∧
      Files hash (kept.keep eq hash row).rows (kept.keep eq hash row).buckets := by
  rw [Kept.keep, hf.holds_eq heq]
  by_cases hany : kept.rows.any (eq row) = true
  · rw [if_pos hany, if_pos hany, append_nil]
    exact ⟨rfl, hf⟩
  · rw [if_neg hany, if_neg hany]
    exact ⟨rfl, hf.push row⟩

/-- The scan from the middle: what is kept already covers the earlier rows. -/
theorem foldl_keep_from {P : α → Prop}
    (htrans : ∀ a b c, eq a b = true → eq b c = true → eq a c = true)
    (hhash : ∀ a b, P a → P b → eq a b = true → hash a = hash b)
    {l earlier : List α} {kept : Kept α η} (hl : ∀ a ∈ l, P a) (hearlier : ∀ a ∈ earlier, P a)
    (hsub : ∀ k ∈ kept.rows, k ∈ earlier) (hstands : StandsFor eq kept.rows earlier)
    (hf : Files hash kept.rows kept.buckets) :
    (l.foldl (Kept.keep eq hash) kept).rows = kept.rows ++ firstsFrom eq earlier l := by
  induction l generalizing kept earlier with
  | nil => simp [firstsFrom]
  | cons a l ih =>
    obtain ⟨ha, hl⟩ := forall_mem_cons.mp hl
    obtain ⟨hrows, hfiles⟩ := Kept.keep_rows hf
      fun r hr => hhash a r ha (hearlier r (hsub r hr))
    have hany := hstands.any_eq htrans hsub a
    rw [foldl_cons, ih hl ?_ ?_ ?_ hfiles, hrows, firstsFrom, hany, append_assoc]
    · intro e he
      rcases mem_append.mp he with he | he
      · exact hearlier e he
      · rwa [mem_singleton.mp he]
    · intro k hk
      rw [hrows] at hk
      rcases mem_append.mp hk with hk | hk
      · exact mem_append_left _ (hsub k hk)
      · split at hk
        · cases hk
        · exact mem_append_right _ hk
    · rw [hrows]
      exact hstands.push a

/-- **The scan keeps the first occurrences**, whatever the hash. -/
theorem foldl_keep {P : α → Prop} (htrans : ∀ a b c, eq a b = true → eq b c = true → eq a c = true)
    (hhash : ∀ a b, P a → P b → eq a b = true → hash a = hash b) {l : List α} (hl : ∀ a ∈ l, P a) :
    (l.foldl (Kept.keep eq hash) ⟨[], ∅⟩).rows = firsts eq l := by
  have hnone : ∀ a ∈ ([] : List α), P a := by simp
  rw [foldl_keep_from htrans hhash hl hnone (by simp) (fun e he => by cases he) (files_empty hash),
    nil_append, firsts]

end UnionId.Lib
