import UnionId.Matching.Exact

/-!
# Termination of the coverage searches

A search expands a wildcard column into the columns of one constructor after the other,
until values are left over below one of them. It comes to an end by itself exactly where
this expansion does: enough budget is then never used up, and otherwise no budget is
enough. On a recursive type both happen, depending on the branches.

## Main results

* `bindPatternsWith_limited_iff` — enough budget settles a match, or no budget does.
* `bindPatternsWith_recursive` — a match that no budget settles.
-/
namespace UnionId.Matching

open Lib Catalog List

/-- Values are left over below a constructor. -/
abbrev UsefulBelow (catalog : Catalog) (matrix : List (List CoveragePattern))
    (query : List CoveragePattern) (types : List ScalarType) (spec : ConstructorSpec) : Prop :=
  IsUseful catalog (specializeMatrix matrix spec.1 spec.2.length)
    (replicate spec.2.length .wildcard ++ query) (spec.2 ++ types)

/-- The columns that the first search expands come to an end. -/
inductive Settles (catalog : Catalog) :
    List (List CoveragePattern) → List CoveragePattern → List ScalarType → Prop
  | covered {types : List ScalarType} (h : matrix.any (wildRow query.length) = true) :
      Settles catalog matrix query types
  | done (matrix : List (List CoveragePattern)) (types : List ScalarType) :
      Settles catalog matrix [] types
  | plain {types : List ScalarType} (hspecs : constructorSpecs catalog ty = .ok none)
      (h : Settles catalog (defaultMatrix matrix) query types) :
      Settles catalog matrix (.wildcard :: query) (ty :: types)
  -- a constructor is looked into only when nothing is left over below the earlier ones
  | wildcard {types : List ScalarType} (hspecs : constructorSpecs catalog ty = .ok (some specs))
      (h : ∀ before spec after, specs = before ++ spec :: after →
        (∀ s ∈ before, ¬UsefulBelow catalog matrix query types s) →
        Settles catalog (specializeMatrix matrix spec.1 spec.2.length)
          (replicate spec.2.length .wildcard ++ query) (spec.2 ++ types)) :
      Settles catalog matrix (.wildcard :: query) (ty :: types)
  | constructor {types : List ScalarType} {spec : ConstructorSpec}
      (hspecs : constructorSpecs catalog ty = .ok (some specs)) (hspec : spec ∈ specs)
      (h : Settles catalog (specializeMatrix matrix spec.1 spec.2.length) (arguments ++ query)
        (spec.2 ++ types)) :
      Settles catalog matrix (.constructor spec.1 arguments :: query) (ty :: types)

variable {catalog : Catalog} {ty : ScalarType} {types : List ScalarType}
  {matrix : List (List CoveragePattern)} {query : List CoveragePattern}
  {spec : ConstructorSpec} {specs : List ConstructorSpec}

/-! ## Searches that fit their types -/

/-- The rows and the query fit declared types. -/
structure Posed (catalog : Catalog) (matrix : List (List CoveragePattern))
    (query : List CoveragePattern) (types : List ScalarType) : Prop where
  declared : ∀ t ∈ types, t.Everywhere catalog.IsDeclared
  rows : ShapedMatrix catalog matrix types
  query : Forall₂ (Shaped catalog) types query

/-- The search below a constructor. -/
def searchBelow (catalog : Catalog) (n : ℕ) (matrix : List (List CoveragePattern))
    (query : List CoveragePattern) (types : List ScalarType) (spec : ConstructorSpec) :
    StateT ℕ Result (Option Unit) := do
  let useful ← patternIsUseful catalog n (specializeMatrix matrix spec.1 spec.2.length)
    (replicate spec.2.length .wildcard ++ query) (spec.2 ++ types)
  pure (if useful then some () else none)

section Search
variable (hc : catalog.Declared)
include hc

theorem Posed.returns (h : Posed catalog matrix query types) (n b : ℕ) :
    Answers IsLimit (patternIsUseful catalog n matrix query types) b fun useful =>
      useful = true ↔ IsUseful catalog matrix query types :=
  patternIsUseful_returns hc n h.declared h.rows h.query b

theorem Posed.below {p : CoveragePattern} (h : Posed catalog matrix (p :: query) (ty :: types))
    (hspecs : constructorSpecs catalog ty = .ok (some specs)) (hspec : spec ∈ specs)
    {arguments : List CoveragePattern} (harguments : Forall₂ (Shaped catalog) spec.2 arguments) :
    Posed catalog (specializeMatrix matrix spec.1 spec.2.length) (arguments ++ query)
      (spec.2 ++ types) := by
  obtain ⟨hhead, htail⟩ := forall_mem_cons.mp h.declared
  exact ⟨declared_append hc hhead hspecs hspec htail,
    h.rows.specialize hspecs (constructorSpecs_splits hc hhead hspecs) hspec,
    rel_append harguments (forall₂_cons.mp h.query).2⟩

theorem Posed.searchBelow_returns {p : CoveragePattern}
    (h : Posed catalog matrix (p :: query) (ty :: types))
    (hspecs : constructorSpecs catalog ty = .ok (some specs)) (hspec : spec ∈ specs) (n b : ℕ) :
    Answers IsLimit (searchBelow catalog n matrix query types spec) b fun found =>
      found.isSome = true ↔ UsefulBelow catalog matrix query types spec := by
  refine ((h.below hc hspecs hspec (shaped_replicate spec.2)).returns hc n b).bind
    fun useful d huseful => .pure (Iff.trans ?_ huseful)
  cases useful <;> simp

omit hc in
theorem Posed.default {p : CoveragePattern} (h : Posed catalog matrix (p :: query) (ty :: types))
    (hspecs : constructorSpecs catalog ty = .ok none) :
    Posed catalog (defaultMatrix matrix) query types :=
  ⟨(forall_mem_cons.mp h.declared).2, h.rows.default hspecs, (forall₂_cons.mp h.query).2⟩

theorem Posed.findSpec_eq {arguments : List CoveragePattern}
    (h : Posed catalog matrix (.constructor spec.1 arguments :: query) (ty :: types))
    (hspecs : constructorSpecs catalog ty = .ok (some specs)) (hspec : spec ∈ specs) :
    findSpec spec.1 (some specs) = some spec :=
  Matching.findSpec_eq (constructorSpecs_splits hc (forall_mem_cons.mp h.declared).1 hspecs) hspec

theorem Posed.arguments {arguments : List CoveragePattern}
    (h : Posed catalog matrix (.constructor spec.1 arguments :: query) (ty :: types))
    (hspecs : constructorSpecs catalog ty = .ok (some specs)) (hspec : spec ∈ specs) :
    Forall₂ (Shaped catalog) spec.2 arguments := by
  have hhead := (forall₂_cons.mp h.query).1
  generalize hname : spec.1 = c at hhead
  cases hhead with
  | @constructor _ specs' s _ hspecs' hs hargs =>
    cases hspecs'.symm.trans hspecs
    have hsplits := constructorSpecs_splits hc (forall_mem_cons.mp h.declared).1 hspecs
    rwa [hsplits.distinct spec hspec s hs hname]

/-! ## Enough budget -/

omit hc in
theorem firstSpec_within {α : Type} {search : ℕ → ConstructorSpec → StateT ℕ Result (Option α)}
    {Q : ConstructorSpec → Prop}
    (h : ∀ before s after, specs = before ++ s :: after → (∀ t ∈ before, ¬Q t) →
      ∃ N, Within IsLimit N (fun n => search n s) fun found => found.isSome = true ↔ Q s) :
    ∃ N, Within IsLimit N (fun n => firstSpec (search n) specs) fun _ => True := by
  induction specs with
  | nil => exact ⟨0, .pure trivial⟩
  | cons s specs ih =>
    obtain ⟨N, hN⟩ := h [] s specs rfl (by simp)
    by_cases hQ : Q s
    · refine ⟨N + 0, hN.bind fun found hfound => ?_⟩
      obtain ⟨answer, rfl⟩ := Option.isSome_iff_exists.mp (hfound.mpr hQ)
      exact .pure trivial
    · obtain ⟨M, hM⟩ := ih fun before t after hsplit hbefore =>
        h (s :: before) t after (congrArg (s :: ·) hsplit) (forall_mem_cons.mpr ⟨hQ, hbefore⟩)
      refine ⟨N + M, hN.bind fun found hfound => ?_⟩
      cases found with
      | some answer => exact absurd (hfound.mp rfl) hQ
      | none => exact hM

/-- **A search that settles is answered** under enough budget. -/
theorem Settles.within (h : Settles catalog matrix query types)
    (hposed : Posed catalog matrix query types) :
    ∃ N, Within IsLimit N (fun n => patternIsUseful catalog n matrix query types) fun useful =>
      useful = true ↔ IsUseful catalog matrix query types := by
  suffices hends : ∃ N, Within IsLimit N (fun n => patternIsUseful catalog n matrix query types)
      fun _ => True by
    obtain ⟨N, hN⟩ := hends
    exact ⟨N, hN.returning (hposed.returns hc)⟩
  induction h with
  | covered hwild =>
    refine ⟨0 + 1, .draw (fun n => rfl) ?_⟩
    simp only [hwild, if_true]
    exact .pure trivial
  | done matrix types =>
    refine ⟨0 + 1, .draw (fun n => rfl) ?_⟩
    split <;> exact .pure trivial
  | plain hspecs _ ih =>
    obtain ⟨N, hN⟩ := ih (hposed.default hspecs)
    refine ⟨N + 1, .draw (fun n => rfl) ?_⟩
    split
    · exact (Within.pure trivial).mono (Nat.zero_le _)
    · exact .lift_bind hspecs hN
  | @wildcard ty specs matrix query types hspecs _ ih =>
    obtain ⟨N, hN⟩ : ∃ N, Within IsLimit N
        (fun n => firstSpec (searchBelow catalog n matrix query types) specs) fun _ => True := by
      refine firstSpec_within (Q := UsefulBelow catalog matrix query types)
        fun before s after hsplit hbefore => ?_
      have hs : s ∈ specs := hsplit ▸ mem_append_right _ (mem_cons_self ..)
      obtain ⟨N, hN⟩ := ih before s after hsplit hbefore
        (hposed.below hc hspecs hs (shaped_replicate s.2))
      have hsearch : Within IsLimit (N + 0)
          (fun n => searchBelow catalog n matrix query types s) fun _ => True :=
        hN.bind fun useful _ => .pure trivial
      exact ⟨N + 0, hsearch.returning (hposed.searchBelow_returns hc hspecs hs)⟩
    refine ⟨N + 0 + 1, .draw (fun n => rfl) ?_⟩
    split
    · exact (Within.pure trivial).mono (Nat.zero_le _)
    · exact .lift_bind hspecs (hN.bind fun found _ => .pure trivial)
  | constructor hspecs hspec _ ih =>
    obtain ⟨N, hN⟩ := ih (hposed.below hc hspecs hspec (hposed.arguments hc hspecs hspec))
    refine ⟨N + 1, .draw (fun n => rfl) ?_⟩
    split
    · exact (Within.pure trivial).mono (Nat.zero_le _)
    · refine .lift_bind hspecs ?_
      rw [hposed.findSpec_eq hc hspecs hspec]
      exact hN

/-! ## Runs that no limit stops -/

omit hc in
/-- Below a constructor that comes after fruitless ones, the search was run. -/
theorem firstSpec_run {α : Type} {search : ConstructorSpec → StateT ℕ Result (Option α)}
    {Q : ConstructorSpec → Prop} {before after : List ConstructorSpec}
    (hsearch : ∀ s ∈ before, ∀ b, Answers IsLimit (search s) b fun found =>
      found.isSome = true ↔ Q s)
    (hbefore : ∀ s ∈ before, ¬Q s) {b c : ℕ} {found : Option α}
    (h : firstSpec search (before ++ spec :: after) b = .ok (found, c)) :
    ∃ b' r c', search spec b' = .ok (r, c') := by
  induction before generalizing b with
  | nil =>
    obtain ⟨r, d, hrun, -⟩ := run_bind_eq_ok.mp h
    exact ⟨b, r, d, hrun⟩
  | cons s before ih =>
    obtain ⟨hs, hsearch⟩ := forall_mem_cons.mp hsearch
    obtain ⟨hQ, hbefore⟩ := forall_mem_cons.mp hbefore
    obtain ⟨r, d, hrun, hrest⟩ := run_bind_eq_ok.mp h
    obtain ⟨_, hr, hiff⟩ | ⟨e, he, -⟩ := hs b
    · cases hrun.symm.trans hr
      cases r with
      | some answer => exact absurd (hiff.mp rfl) hQ
      | none => exact ih hsearch hbefore hrest
    · cases hrun.symm.trans he

/-- **A search that is answered settles.** -/
theorem settles_of_run {n b c : ℕ} {useful : Bool} (hposed : Posed catalog matrix query types)
    (h : patternIsUseful catalog n matrix query types b = .ok (useful, c)) :
    Settles catalog matrix query types := by
  induction n generalizing matrix query types b c useful with
  | zero => cases h
  | succ n ih =>
    by_cases hwild : matrix.any (wildRow query.length) = true
    · exact .covered hwild
    unfold patternIsUseful at h
    obtain ⟨_, d, -, h⟩ := run_bind_eq_ok.mp h
    rw [if_neg hwild] at h
    have hshaped := hposed.query
    cases hshaped with
    | nil => exact .done ..
    | @cons ty p types query hp hquery =>
      cases hp with
      | wildcard =>
        obtain ⟨found, _, hlift, h⟩ := run_bind_eq_ok.mp h
        have hspecs := (run_lift_eq_ok.mp hlift).1
        cases found with
        | none => exact .plain hspecs (ih (hposed.default hspecs) h)
        | some specs =>
          obtain ⟨found, d', h, -⟩ := run_bind_eq_ok.mp h
          refine .wildcard hspecs fun before s after hsplit hbefore => ?_
          subst hsplit
          have hsearch := fun s' (hs' : s' ∈ before) =>
            hposed.searchBelow_returns hc hspecs (mem_append_left (s :: after) hs') n
          obtain ⟨_, _, _, hrun⟩ := firstSpec_run hsearch hbefore h
          obtain ⟨_, _, hrun, -⟩ := run_bind_eq_ok.mp hrun
          exact ih (hposed.below hc hspecs (by simp) (shaped_replicate s.2)) hrun
      | @constructor _ specs s arguments hspecs hspec hargs =>
        obtain ⟨found, _, hlift, h⟩ := run_bind_eq_ok.mp h
        cases hspecs.symm.trans (run_lift_eq_ok.mp hlift).1
        rw [hposed.findSpec_eq hc hspecs hspec] at h
        exact .constructor hspecs hspec (ih (hposed.below hc hspecs hspec hargs) h)

end Search

/-! ## Matches -/

/-- The searches after the last branch settle: whether values are left over, and then which
constructors they have. -/
structure RowsSettle (catalog : Catalog) (ty : ScalarType) (matrix : List (List CoveragePattern)) :
    Prop where
  uncovered : Settles catalog matrix [.wildcard] [ty]
  missing : IsUseful catalog matrix [.wildcard] [ty] → ∀ specs,
    constructorSpecs catalog ty = .ok (some specs) → ∀ spec ∈ specs,
      Settles catalog matrix [.constructor spec.1 (replicate spec.2.length .wildcard)] [ty]

/-- All searches that binding makes settle. A branch is looked at after the rows of the earlier
ones, unless it is refused for its place, and the later ones only if it can be reached. -/
def MatchSettles (catalog : Catalog) (sourceName : String) (ty : ScalarType) :
    List (List CoveragePattern) → List MatchPattern → Prop
  | matrix, [] => RowsSettle catalog ty matrix
  | matrix, p :: rest => (CatchAll p → rest = []) → ∀ coverage,
      coveragePattern catalog sourceName p ty = .ok coverage →
      Settles catalog matrix [coverage] [ty] ∧
        (IsUseful catalog matrix [coverage] [ty] →
          MatchSettles catalog sourceName ty (matrix ++ [[coverage]]) rest)

/-- The check after the last branch. -/
def checkRows (catalog : Catalog) (n : ℕ) (ty : ScalarType)
    (bound : List (MatchPattern × List Column)) (matrix : List (List CoveragePattern)) :
    StateT ℕ Result (List (MatchPattern × List Column)) := do
  match ← uncoveredPatterns catalog n matrix [ty] with
  | none => pure bound
  | some witness => do
    let missing ← missingTopLevelConstructors catalog n ty matrix
    throw (nonExhaustive missing witness)

/-- Whether values of a constructor are left over. -/
def missingSpec (catalog : Catalog) (n : ℕ) (ty : ScalarType)
    (matrix : List (List CoveragePattern)) (spec : ConstructorSpec) :
    StateT ℕ Result (Option String) := do
  let pattern := Pat.constructor spec.1 (replicate spec.2.length .wildcard)
  let useful ← patternIsUseful catalog n matrix [pattern] [ty]
  pure (if useful then some (spec.1.name.getD (CoveragePattern.display pattern)) else none)

section Lists
variable {α β : Type} {l : List α}

theorem filterMapM_within {search : ℕ → α → StateT ℕ Result (Option β)}
    (h : ∀ a ∈ l, ∃ N, Within IsLimit N (fun n => search n a) fun _ => True) :
    ∃ N, ∀ acc, Within IsLimit N (fun n => List.filterMapM.loop (search n) l acc) fun _ =>
      True := by
  induction l with
  | nil => exact ⟨0, fun acc => .pure trivial⟩
  | cons a l ih =>
    obtain ⟨⟨N, hN⟩, hrest⟩ := forall_mem_cons.mp h
    obtain ⟨M, hM⟩ := ih hrest
    refine ⟨N + M, fun acc => ?_⟩
    simp only [List.filterMapM.loop]
    refine hN.bind fun found _ => ?_
    cases found with
    | none => exact hM acc
    | some r => exact hM (r :: acc)

/-- Where no limit stops a search over a list, every element was looked at. -/
theorem filterMapM_run {search : α → StateT ℕ Result (Option β)} {b : ℕ} {acc : List β}
    (h : ∀ a ∈ l, ∀ b, Answers IsLimit (search a) b fun _ => True)
    (hlimit : ∀ e, List.filterMapM.loop search l acc b = .error e → ¬IsLimit e) :
    ∀ a ∈ l, ∃ b' r, search a b' = .ok r := by
  induction l generalizing b acc with
  | nil => simp
  | cons a l ih =>
    obtain ⟨ha, hrest⟩ := forall_mem_cons.mp h
    simp only [List.filterMapM.loop, run_bind] at hlimit
    obtain ⟨⟨found, d⟩, hrun, -⟩ | ⟨e, hrun, he⟩ := ha b
    · rw [hrun] at hlimit
      refine forall_mem_cons.mpr ⟨⟨b, _, hrun⟩, ?_⟩
      cases found with
      | none => exact ih hrest hlimit
      | some r => exact ih hrest hlimit
    · rw [hrun] at hlimit
      exact absurd he (hlimit e rfl)

end Lists

section Match
variable {sourceName : String} {source : MatchSource} (hc : catalog.Declared)
  (hty : ty.Everywhere catalog.IsDeclared)
  (hsource : matchSource catalog ty sourceName = .ok source)
include hsource

/-- A branch that binds is refused for its place, and not for a limit. -/
theorem bindArm_not_limit {last : Bool} {arm p : MatchPattern}
    (hbinds : Binds catalog sourceName ty arm p) {e : Error}
    (h : bindArm catalog source sourceName ty last arm = .error e) : ¬IsLimit e := by
  obtain ⟨hall, rfl⟩ := bindArm_error hsource h hbinds
  cases arm with
  | constructor name payload tag =>
    obtain ⟨columns, hbinds⟩ := hbinds
    obtain ⟨_, -, _, -, hbinds⟩ := of_bind₂ hbinds
    obtain ⟨_, -, hbinds⟩ := of_bind hbinds
    cases hbinds
    obtain heq | ⟨_, heq⟩ := hall <;> cases heq
  | _ =>
    cases h
    exact ErrorCode.noConfusion

omit hsource in
/-- A branch that accepts anything is bound in the last place only. -/
theorem bindArm_catchAll {last : Bool} {arm : MatchPattern} {r : MatchPattern × List Column}
    (h : bindArm catalog source sourceName ty last arm = .ok r) (hall : CatchAll r.1) :
    last = true := by
  cases arm with
  | wildcard | binding =>
    cases last with
    | false => cases h
    | true => rfl
  | constructor name payload tag =>
    obtain ⟨_, -, _, -, h⟩ := of_bind₂ h
    cases h
    obtain heq | ⟨_, heq⟩ := hall <;> cases heq
  | record | tuple => cases h

theorem exists_constructorSpecs : ∃ specs, constructorSpecs catalog ty = .ok (some specs) := by
  obtain ⟨u, hu, h⟩ := of_bind hsource
  cases u with
  | enum variants => exact ⟨_, constructorSpecs_eq_ok.mpr ⟨_, hu, rfl⟩⟩
  | option inner => exact ⟨_, constructorSpecs_eq_ok.mpr ⟨_, hu, rfl⟩⟩
  | _ => cases h

variable {arms bound : List MatchPattern}

/-- Binding fails as its two parts do under one budget. -/
theorem bindPatternsWith_eq_error {limit : ℕ} {e : Error} :
    bindPatternsWith limit catalog sourceName ty arms = .error e ↔
      (bindArms catalog limit source sourceName ty 0 [] arms >>= fun r =>
        checkRows catalog limit ty r.1 r.2) limit = .error e := by
  simp only [bindPatternsWith, hsource, ok_bind, run_bind, checkRows]
  cases bindArms catalog limit source sourceName ty 0 [] arms limit with
  | error err => simp
  | ok r =>
    simp only [ok_bind]
    cases uncoveredPatterns catalog limit r.1.2 [ty] r.2 with
    | error err => simp
    | ok w =>
      obtain ⟨witness, d⟩ := w
      cases witness with
      | none => exact ⟨nofun, nofun⟩
      | some witness =>
        simp only [ok_bind, run_bind]
        cases missingTopLevelConstructors catalog limit ty r.1.2 d <;>
          exact ⟨fun h => by cases h; rfl, fun h => by cases h; rfl⟩

include hc hty

/-- A branch that is not refused for its place, with its row. -/
theorem row_of_bindArm {arm p : MatchPattern} {last : Bool} {r : MatchPattern × List Column}
    (hbinds : Binds catalog sourceName ty arm p)
    (h : bindArm catalog source sourceName ty last arm = .ok r) :
    r.1 = p ∧ ∃ coverage, coveragePattern catalog sourceName p ty = .ok coverage ∧
      Shaped catalog ty coverage := by
  have hbind := bindArm_eq_ok hsource h
  obtain rfl := binds_unique hbinds ⟨r.2, hbind⟩
  obtain ⟨coverage, hcoverage, _, heq, hshaped, -⟩ :=
    rowOf_bindable (bindNestedPattern_bindable hc arm hty hbind sourceName)
  cases heq
  exact ⟨rfl, coverage, hcoverage, hshaped⟩

/-! ### Enough budget for a match -/

theorem bindArms_within (hbinds : Forall₂ (Binds catalog sourceName ty) arms bound) (index : ℕ)
    (hmatrix : ShapedMatrix catalog matrix [ty])
    (h : MatchSettles catalog sourceName ty matrix bound) :
    ∃ N matrix', Within IsLimit N
      (fun n => bindArms catalog n source sourceName ty index matrix arms) fun r =>
        r.2 = matrix' ∧ ShapedMatrix catalog matrix' [ty] ∧ RowsSettle catalog ty matrix' := by
  induction hbinds generalizing index matrix with
  | nil => exact ⟨0, matrix, .pure ⟨rfl, hmatrix, h⟩⟩
  | @cons arm p arms bound hp hrest ih =>
    cases harm : bindArm catalog source sourceName ty arms.isEmpty arm with
    | error e => exact ⟨0, matrix, .lift_error harm (bindArm_not_limit hsource hp harm)⟩
    | ok r =>
      obtain ⟨rfl, coverage, hcoverage, hshaped⟩ := row_of_bindArm hc hty hsource hp harm
      have hplace : CatchAll r.1 → bound = [] := fun hall =>
        length_eq_zero_iff.mp (hrest.length_eq ▸ by simpa using bindArm_catchAll harm hall)
      obtain ⟨hsettles, hlater⟩ := h hplace coverage hcoverage
      obtain ⟨N, hN⟩ := hsettles.within hc
        ⟨forall_mem_singleton.mpr hty, hmatrix, .cons hshaped .nil⟩
      by_cases huseful : IsUseful catalog matrix [coverage] [ty]
      · have hrows : ShapedMatrix catalog (matrix ++ [[coverage]]) [ty] :=
          forall_mem_append.mpr ⟨hmatrix, forall_mem_singleton.mpr (.cons hshaped .nil)⟩
        obtain ⟨M, matrix', hM⟩ := ih (index + 1) hrows (hlater huseful)
        refine ⟨N + (M + 0), matrix', .lift_bind harm (.lift_bind hcoverage
          (hN.bind fun useful hiff => ?_))⟩
        rw [hiff.mpr huseful]
        exact hM.bind fun r hr => .pure hr
      · refine ⟨N + 0, matrix, .lift_bind harm (.lift_bind hcoverage
          (hN.bind fun useful hiff => ?_))⟩
        cases useful with
        | true => exact absurd (hiff.mp rfl) huseful
        | false => exact .throw ErrorCode.noConfusion

theorem RowsSettle.within (hmatrix : ShapedMatrix catalog matrix [ty])
    (h : RowsSettle catalog ty matrix) :
    ∃ N, ∀ out, Within IsLimit N (fun n => checkRows catalog n ty out matrix) fun _ => True := by
  have hposed : ∀ p, Shaped catalog ty p → Posed catalog matrix [p] [ty] := fun p hp =>
    ⟨forall_mem_singleton.mpr hty, hmatrix, .cons hp .nil⟩
  obtain ⟨N, hN⟩ := h.uncovered.within hc (hposed _ (.wildcard ty))
  have huncovered := Within.of_map (g := Option.isSome) hN fun n =>
    patternIsUseful_wildcards n matrix [ty]
  by_cases huseful : IsUseful catalog matrix [.wildcard] [ty]
  · obtain ⟨specs, hspecs⟩ := exists_constructorSpecs hsource
    have hspec : ∀ spec ∈ specs, ∃ M, Within IsLimit M
        (fun n => missingSpec catalog n ty matrix spec) fun _ => True := by
      intro spec hspec
      obtain ⟨M, hM⟩ := (h.missing huseful specs hspecs spec hspec).within hc
        (hposed _ (.constructor hspecs hspec (shaped_replicate spec.2)))
      exact ⟨M + 0, hM.bind fun useful _ => .pure trivial⟩
    obtain ⟨M, hM⟩ := filterMapM_within hspec
    have hmissing : Within IsLimit (M + 0)
        (fun n => missingTopLevelConstructors catalog n ty matrix) fun _ => True :=
      .lift_bind hspecs ((hM []).bind fun missing _ => .pure trivial)
    refine ⟨N + (M + 0 + 0), fun out => huncovered.bind fun witness hwitness => ?_⟩
    obtain ⟨answer, rfl⟩ := Option.isSome_iff_exists.mp (hwitness.mpr huseful)
    exact hmissing.bind fun missing _ => .throw ErrorCode.noConfusion
  · refine ⟨N + 0, fun out => huncovered.bind fun witness hwitness => ?_⟩
    cases witness with
    | none => exact .pure trivial
    | some answer => exact absurd (hwitness.mp rfl) huseful

theorem MatchSettles.within (hbinds : Forall₂ (Binds catalog sourceName ty) arms bound)
    (h : MatchSettles catalog sourceName ty [] bound) :
    ∃ N, ∀ limit ≥ N, ∀ e, bindPatternsWith limit catalog sourceName ty arms = .error e →
      ¬IsLimit e := by
  obtain ⟨N, matrix, hN⟩ := bindArms_within hc hty hsource hbinds 0 (by simp [ShapedMatrix]) h
  obtain ⟨M, hM⟩ : ∃ M, ∀ out, ShapedMatrix catalog matrix [ty] ∧ RowsSettle catalog ty matrix →
      Within IsLimit M (fun n => checkRows catalog n ty out matrix) fun _ => True := by
    by_cases hrows : ShapedMatrix catalog matrix [ty] ∧ RowsSettle catalog ty matrix
    · obtain ⟨M, hM⟩ := hrows.2.within hc hty hsource hrows.1
      exact ⟨M, fun out _ => hM out⟩
    · exact ⟨0, fun out h => absurd h hrows⟩
  have hmatch := hN.bind (f := fun n r => checkRows catalog n ty r.1 r.2) (R := fun _ => True)
    fun r hr => hr.1 ▸ hM r.1 (hr.1 ▸ hr.2)
  refine ⟨N + M, fun limit hlimit e he => ?_⟩
  rw [bindPatternsWith_eq_error hsource] at he
  obtain ⟨_, _, hrun, -⟩ | ⟨err, hrun, herr⟩ := hmatch limit limit hlimit hlimit
  · cases he.symm.trans hrun
  · cases he.symm.trans hrun
    exact herr

/-! ### A match that no limit stops -/

theorem matchSettles_of_run (hbinds : Forall₂ (Binds catalog sourceName ty) arms bound)
    {limit b : ℕ} (index : ℕ) (hmatrix : ShapedMatrix catalog matrix [ty])
    (hlimit : ∀ e, bindArms catalog limit source sourceName ty index matrix arms b = .error e →
      ¬IsLimit e)
    (hrows : ∀ out matrix' b', ShapedMatrix catalog matrix' [ty] →
      bindArms catalog limit source sourceName ty index matrix arms b = .ok ((out, matrix'), b') →
      RowsSettle catalog ty matrix') : MatchSettles catalog sourceName ty matrix bound := by
  induction hbinds generalizing index matrix b with
  | nil => exact hrows [] matrix b hmatrix rfl
  | @cons arm p arms bound hp hrest ih =>
    intro hplace coverage hcoverage
    cases harm : bindArm catalog source sourceName ty arms.isEmpty arm with
    | error e =>
      obtain ⟨hall, hlast⟩ := bindArm_error hsource harm hp
      have hlength := hrest.length_eq
      rw [hplace hall, length_nil, length_eq_zero_iff] at hlength
      subst hlength
      cases hlast
    | ok r =>
      obtain ⟨rfl, _, hcoverage', hshaped⟩ := row_of_bindArm hc hty hsource hp harm
      cases hcoverage.symm.trans hcoverage'
      have hposed : Posed catalog matrix [coverage] [ty] :=
        ⟨forall_mem_singleton.mpr hty, hmatrix, .cons hshaped .nil⟩
      simp only [bindArms_cons, harm, ok_bind, hcoverage] at hlimit hrows
      obtain ⟨⟨useful, d⟩, hrun, hiff⟩ | ⟨e, hrun, he⟩ := hposed.returns hc limit b
      · simp only [hrun, ok_bind] at hlimit hrows
        refine ⟨settles_of_run hc hposed hrun, fun huseful => ?_⟩
        obtain rfl : useful = true := hiff.mpr huseful
        simp only [if_true] at hlimit hrows
        have hmatrix' : ShapedMatrix catalog (matrix ++ [[coverage]]) [ty] :=
          forall_mem_append.mpr ⟨hmatrix, forall_mem_singleton.mpr (.cons hshaped .nil)⟩
        refine ih (b := d) (index + 1) hmatrix' (fun e he => hlimit e ?_)
          fun out matrix' b' hshape hout => hrows (r :: out) matrix' b' hshape ?_
        · rw [he, error_bind]
        · rw [hout, ok_bind]
          rfl
      · exact absurd he (hlimit e (by rw [hrun, error_bind]))

omit hsource in
/-- Where no limit stops the check of all rows, its searches settle. -/
theorem rowsSettle_of_run (hmatrix : ShapedMatrix catalog matrix [ty]) {n b : ℕ}
    {out : List (MatchPattern × List Column)}
    (hlimit : ∀ e, checkRows catalog n ty out matrix b = .error e → ¬IsLimit e) :
    RowsSettle catalog ty matrix := by
  have hposed : ∀ p, Shaped catalog ty p → Posed catalog matrix [p] [ty] := fun p hp =>
    ⟨forall_mem_singleton.mpr hty, hmatrix, .cons hp .nil⟩
  simp only [checkRows, run_bind] at hlimit
  obtain ⟨⟨witness, d⟩, hrun, hiff⟩ | ⟨e, hrun, he⟩ :=
    uncoveredPatterns_returns hc n (forall_mem_singleton.mpr hty) hmatrix b
  · simp only [hrun, ok_bind] at hlimit
    have huseful : patternIsUseful catalog n matrix [.wildcard] [ty] b =
        .ok (witness.isSome, d) :=
      (congrFun (patternIsUseful_wildcards n matrix [ty]) b).trans (run_map hrun)
    refine ⟨settles_of_run hc (hposed _ (.wildcard ty)) huseful,
      fun huseful specs hspecs spec hspec => ?_⟩
    obtain ⟨answer, rfl⟩ := Option.isSome_iff_exists.mp (hiff.mpr huseful)
    have hpattern : ∀ s ∈ specs, Posed catalog matrix
        [.constructor s.1 (replicate s.2.length .wildcard)] [ty] := fun s hs =>
      hposed _ (.constructor hspecs hs (shaped_replicate s.2))
    have hmissing : ∀ e, List.filterMapM.loop (missingSpec catalog n ty matrix) specs [] d =
        .error e → ¬IsLimit e := by
      intro e he
      refine hlimit e ?_
      have hrun : missingTopLevelConstructors catalog n ty matrix d = .error e := by
        unfold missingTopLevelConstructors
        rw [run_lift_bind, hspecs, ok_bind]
        change (List.filterMapM.loop (missingSpec catalog n ty matrix) specs [] d >>= _) = _
        rw [he, error_bind]
      simp only [run_bind, hrun, error_bind]
    obtain ⟨_, _, hone⟩ := filterMapM_run (fun s hs b =>
      ((hpattern s hs).returns hc n b).bind fun _ _ _ => .pure trivial) hmissing spec hspec
    obtain ⟨_, _, hone, -⟩ := run_bind_eq_ok.mp hone
    exact settles_of_run hc (hpattern spec hspec) hone
  · exact absurd he (hlimit e (by rw [hrun, error_bind]))

/-- **A match that no limit stops settles.** -/
theorem matchSettles_of_bindPatternsWith
    (hbinds : Forall₂ (Binds catalog sourceName ty) arms bound) {limit : ℕ}
    (hlimit : ∀ e, bindPatternsWith limit catalog sourceName ty arms = .error e → ¬IsLimit e) :
    MatchSettles catalog sourceName ty [] bound := by
  simp only [bindPatternsWith_eq_error hsource, run_bind] at hlimit
  refine matchSettles_of_run hc hty hsource hbinds (b := limit) 0 (by simp [ShapedMatrix])
    (fun e (he : bindArms catalog limit _ _ _ _ _ _ _ = _) => hlimit e (by rw [he, error_bind]))
    fun out matrix b hmatrix hrun => ?_
  simp only [hrun, ok_bind] at hlimit
  exact rowsSettle_of_run hc hty hmatrix hlimit

end Match

/-- A tree whose nodes carry an optional mark after their subtree. -/
def tree : TypeDefinition :=
  ⟨3, "Tree", .enum [⟨"Leaf", [], 1⟩, ⟨"Node", [.ref 3, .option .int], 2⟩]⟩

def treeCatalog : Catalog where
  types := (∅ : Std.ExtTreeMap String TypeDefinition).insert "Tree" tree
  nextId := 4

theorem tree_distinct : treeCatalog.Everywhere ScalarType.Distinct := by
  intro id d hd
  obtain ⟨-, name, hname⟩ := definition_mem hd
  obtain ⟨-, rfl⟩ := getElem?_singleton.mp hname
  have hids : ([1, 2] : List UInt64).Nodup := by decide
  refine .node hids fun part hpart => ?_
  simp only [tree, ScalarType.parts, flatMap_cons, flatMap_nil, append_nil,
    nil_append, mem_cons, not_mem_nil, or_false] at hpart
  obtain rfl | rfl := hpart
  · exact .leaf trivial rfl
  · exact .node trivial fun part hpart => mem_singleton.mp hpart ▸ .leaf trivial rfl

theorem tree_declared : treeCatalog.Declared ∧
    (ScalarType.ref 3).Everywhere treeCatalog.IsDeclared :=
  ⟨declared_of_validateFiniteTypes tree_distinct (by rfl), .leaf ⟨tree, by rfl⟩ rfl⟩

theorem tree_source : matchSource treeCatalog (.ref 3) "t" =
    .ok (.enum [⟨"Leaf", [], 1⟩, ⟨"Node", [.ref 3, .option .int], 2⟩]) := by rfl

theorem tree_specs : constructorSpecs treeCatalog (.ref 3) =
    .ok (some [(.variant 1 "Leaf", []), (.variant 2 "Node", [.ref 3, .option .int])]) := by
  have hu : treeCatalog.underlying (.ref 3) = .ok tree.ty := by rfl
  refine constructorSpecs_eq_ok.mpr ⟨_, hu, ?_⟩
  have hsorted : orderedVariants (.ref 3) [⟨"Leaf", [], 1⟩, ⟨"Node", [.ref 3, .option .int], 2⟩] =
      [⟨"Leaf", [], 1⟩, ⟨"Node", [.ref 3, .option .int], 2⟩] :=
    mergeSort_of_pairwise (.cons (by simp [itemsContainRef]) (.cons (by simp) .nil))
  simp only [tree, specsOf, hsorted, map_cons, map_nil, variantSpec]

theorem Settles.of_pair {s t : ConstructorSpec}
    (hspecs : constructorSpecs catalog ty = .ok (some [s, t]))
    (hs : Settles catalog (specializeMatrix matrix s.1 s.2.length)
      (replicate s.2.length .wildcard ++ query) (s.2 ++ types))
    (ht : ¬UsefulBelow catalog matrix query types s →
      Settles catalog (specializeMatrix matrix t.1 t.2.length)
        (replicate t.2.length .wildcard ++ query) (t.2 ++ types)) :
    Settles catalog matrix (.wildcard :: query) (ty :: types) := by
  refine .wildcard hspecs fun before spec after hsplit hbefore => ?_
  rcases before with _ | ⟨s', _ | ⟨t', before⟩⟩
  · cases hsplit
    exact hs
  · cases hsplit
    exact ht (hbefore s (mem_singleton_self _))
  · simp at hsplit

/-- A leaf, and a node with anything in it. -/
def nodeArms : List MatchPattern :=
  [.constructor "Leaf" .unit none, .constructor "Node" (.positional [.wildcard, .wildcard]) none]

def nodeBound : List MatchPattern :=
  [.constructor "Leaf" .unit (some (.variant 1)),
    .constructor "Node" (.positional [.wildcard, .wildcard]) (some (.variant 2))]

/-- Below a node that no row mentions, the first constructor of every column is enough. -/
theorem node_settles : Settles treeCatalog [] [.wildcard, .wildcard] [.ref 3, .option .int] := by
  have hoption : constructorSpecs treeCatalog (.option .int) =
      .ok (some [(.none, []), (.some, [.int])]) := rfl
  have hnone : treeCatalog.Typed (.option .int) (.option none) := typed_option.mpr (.inl rfl)
  refine .of_pair tree_specs (.of_pair hoption (.done ..) fun h => absurd ?_ h)
    fun h => absurd ?_ h
  · exact ⟨[], .nil, coversAll_nil.mpr rfl, nofun⟩
  · exact ⟨[.option none], .cons hnone .nil,
      coversAll_cons.mpr ⟨covers_wildcard.mpr trivial, coversAll_nil.mpr rfl⟩, nofun⟩

theorem nodeBound_settles : MatchSettles treeCatalog "t" (.ref 3) [] nodeBound := by
  rintro - coverage hleaf
  cases (show coveragePattern treeCatalog "t" (.constructor "Leaf" .unit (some (.variant 1)))
    (.ref 3) = .ok (.constructor (.variant 1 "Leaf") []) by rfl).symm.trans hleaf
  refine ⟨.constructor tree_specs (mem_cons_self ..) (.done ..), ?_⟩
  rintro - - coverage hnode
  cases (show coveragePattern treeCatalog "t" (.constructor "Node"
    (.positional [.wildcard, .wildcard]) (some (.variant 2))) (.ref 3) =
      .ok (.constructor (.variant 2 "Node") [.wildcard, .wildcard]) by rfl).symm.trans hnode
  refine ⟨.constructor tree_specs (mem_cons_of_mem _ (mem_cons_self ..)) node_settles,
    fun _ => ⟨.of_pair tree_specs (.covered (by rfl)) fun _ => .covered (by rfl), ?_⟩⟩
  intro _ specs hspecs spec hspec
  cases tree_specs.symm.trans hspecs
  refine .constructor tree_specs hspec (.covered ?_)
  simp only [mem_cons, not_mem_nil, or_false] at hspec
  obtain rfl | rfl := hspec <;> rfl

/-- A leaf, a node without a mark, and a node with one. -/
def treeArms : List MatchPattern :=
  [.constructor "Leaf" .unit none,
    .constructor "Node" (.positional [.wildcard, .constructor "None" .unit none]) none,
    .constructor "Node" (.positional [.wildcard,
      .constructor "Some" (.positional [.wildcard]) none]) none]

/-- The same branches with their tags. -/
def treeBound : List MatchPattern :=
  [.constructor "Leaf" .unit (some (.variant 1)),
    .constructor "Node" (.positional [.wildcard, .constructor "None" .unit (some .none)])
      (some (.variant 2)),
    .constructor "Node" (.positional [.wildcard,
      .constructor "Some" (.positional [.wildcard]) (some .some)]) (some (.variant 2))]

theorem tree_binds : Forall₂ (Binds treeCatalog "t" (.ref 3)) treeArms treeBound :=
  .cons ⟨[], by rfl⟩ (.cons ⟨[], by rfl⟩ (.cons ⟨[], by rfl⟩ .nil))

theorem tree_exhaustive : Exhaustive treeCatalog (.ref 3) treeBound := by
  intro v hv
  obtain ⟨inner, d, rfl, hd, hinner⟩ := typed_ref.mp hv
  have htree : treeCatalog.definition 3 = .ok tree := by rfl
  obtain rfl : tree = d := Except.ok.inj (htree.symm.trans hd)
  obtain ⟨variant, hmem, args, rfl, hargs⟩ := typed_enum.mp hinner
  simp only [mem_cons, not_mem_nil, or_false] at hmem
  obtain rfl | rfl := hmem
  · obtain rfl := forall₂_nil_left_iff.mp hargs
    exact ⟨_, mem_cons_self .., rfl⟩
  · obtain ⟨left, rest, -, hrest, rfl⟩ := forall₂_cons_left_iff.mp hargs
    obtain ⟨mark, none, hmark, hnone, rfl⟩ := forall₂_cons_left_iff.mp hrest
    obtain rfl := forall₂_nil_left_iff.mp hnone
    obtain rfl | ⟨w, rfl, -⟩ := typed_option.mp hmark
    · exact ⟨_, mem_cons_of_mem _ (mem_cons_self ..), rfl⟩
    · exact ⟨_, mem_cons_of_mem _ (mem_cons_of_mem _ (mem_cons_self ..)), rfl⟩

theorem tree_reachable : Reachable treeCatalog (.ref 3) treeBound := by
  have typed_of : ∀ w, treeCatalog.Typed tree.ty w → treeCatalog.Typed (.ref 3) (.named 3 w) :=
    fun w hw => typed_ref.mpr ⟨w, tree, rfl, by rfl, hw⟩
  have hleaf : treeCatalog.Typed (.ref 3) (.named 3 (.enum "Leaf" [] 1)) :=
    typed_of _ (typed_enum.mpr ⟨_, mem_cons_self .., [], rfl, .nil⟩)
  have hnode : ∀ mark, treeCatalog.Typed (.option .int) mark → treeCatalog.Typed (.ref 3)
      (.named 3 (.enum "Node" [.named 3 (.enum "Leaf" [] 1), mark] 2)) := fun mark hmark =>
    typed_of _ (typed_enum.mpr ⟨_, mem_cons_of_mem _ (mem_cons_self ..), _, rfl,
      .cons hleaf (.cons hmark .nil)⟩)
  refine ⟨⟨_, hleaf, rfl, by simp⟩, ⟨_, hnode (.option none)
    (typed_option.mpr (.inl rfl)), rfl, ?_⟩,
    ⟨_, hnode (.option (some (.int 0))) (typed_option.mpr (.inr ⟨_, rfl, 1, 0, rfl⟩)), rfl, ?_⟩,
    trivial⟩ <;> simp only [nil_append, cons_append, forall_mem_cons,
      not_mem_nil, false_implies, implies_true, and_true]
  · exact Bool.false_ne_true
  · exact ⟨Bool.false_ne_true, Bool.false_ne_true⟩

/-- The rows over `k` columns that nothing constrains and a mark. -/
def markRows (k : ℕ) : List (List CoveragePattern) :=
  [replicate k .wildcard ++ [.constructor .none []],
    replicate k .wildcard ++ [.constructor .some [.wildcard]]]

theorem specialize_markRows (k : ℕ) (c : CoverageConstructor) (arity : ℕ) :
    specializeMatrix (markRows (k + 1)) c arity = markRows (arity + k) := by
  simp [specializeMatrix, markRows, replicate_succ, specializeRow, ← append_assoc,
    replicate_append_replicate]

theorem markRows_not_wild (k width : ℕ) : (markRows k).any (wildRow width) = false := by
  simp [markRows, wildRow, Pat.isWildcard]

theorem markRows_cover (k : ℕ) (query : List CoveragePattern) :
    ¬IsUseful treeCatalog (markRows k) query (replicate (k + 1) (.option .int)) := by
  rintro ⟨vs, hvs, -, hnone⟩
  rw [replicate_succ'] at hvs
  obtain ⟨us, last, hus, hlast, rfl⟩ := forall₂_of_append hvs
  obtain ⟨mark, rest, hmark, hrest, rfl⟩ := forall₂_cons_left_iff.mp hlast
  obtain rfl := forall₂_nil_left_iff.mp hrest
  have hlen : us.length = k := by simpa using hus.length_eq.symm
  have hcover : ∀ p, Covers fieldsOf p mark →
      CoversAll fieldsOf (replicate k .wildcard ++ [p]) (us ++ [mark]) := fun p hp =>
    (coversAll_append (by simp [hlen])).mpr ⟨coversAll_replicate.mpr hlen,
      coversAll_cons.mpr ⟨hp, coversAll_nil.mpr rfl⟩⟩
  obtain rfl | ⟨w, rfl, -⟩ := typed_option.mp hmark
  · exact hnone _ (mem_cons_self ..) (hcover _ (covers_constructor.mpr ⟨[], rfl, by simp⟩))
  · exact hnone _ (mem_cons_of_mem _ (mem_cons_self ..))
      (hcover _ (covers_constructor.mpr ⟨[w], rfl, by simp⟩))

/-- **The search never ends by itself**: a wildcard for the subtree is expanded into
another subtree and another mark. -/
theorem markRows_endless (h : Settles treeCatalog matrix query types) (k : ℕ)
    (hmatrix : matrix = markRows (k + 1)) (hquery : query = replicate (k + 2) .wildcard)
    (htypes : types = .ref 3 :: replicate (k + 1) (.option .int)) : False := by
  induction h generalizing k with
  | covered hwild =>
    rw [hmatrix, markRows_not_wild] at hwild
    cases hwild
  | done => cases hquery
  | plain hspecs =>
    cases htypes
    cases tree_specs.symm.trans hspecs
  | wildcard hspecs _ ih =>
    cases htypes
    obtain rfl := (cons.inj hquery).2
    subst hmatrix
    cases tree_specs.symm.trans hspecs
    refine ih [(.variant 1 "Leaf", [])] (.variant 2 "Node", [.ref 3, .option .int])
      [] rfl ?_ (k + 1)
      ?_ rfl rfl
    · rw [forall_mem_singleton, UsefulBelow, specialize_markRows, length_nil, Nat.zero_add]
      exact markRows_cover k _
    · rw [specialize_markRows]
      exact congrArg markRows (by simp; omega)
  | constructor => cases hquery

def treeRows : List (List CoveragePattern) :=
  [[.constructor (.variant 1 "Leaf") []],
    [.constructor (.variant 2 "Node") [.wildcard, .constructor .none []]],
    [.constructor (.variant 2 "Node") [.wildcard, .constructor .some [.wildcard]]]]

theorem treeRows_endless : ¬Settles treeCatalog treeRows [.wildcard] [.ref 3] := by
  intro h
  cases h with
  | covered hwild => cases hwild
  | plain hspecs => cases tree_specs.symm.trans hspecs
  | wildcard hspecs hbelow =>
    cases tree_specs.symm.trans hspecs
    refine markRows_endless (hbelow [(.variant 1 "Leaf", [])]
      (.variant 2 "Node", [.ref 3, .option .int]) [] rfl ?_) 0 rfl rfl rfl
    rw [forall_mem_singleton]
    exact not_useful_of_wildRow (mem_singleton_self []) rfl

/-- A branch that was bound has left its row. -/
theorem bindArms_cons_ok {catalog : Catalog} {index : ℕ} {source : MatchSource}
    {sourceName : String} {matrix' : List (List CoveragePattern)}
    {arm : MatchPattern} {arms : List MatchPattern} {b b' : ℕ} {bound : MatchPattern × List Column}
    {coverage : CoveragePattern}
    (h : bindArms catalog limit source sourceName ty index matrix (arm :: arms) b =
      .ok ((out, matrix'), b'))
    (harm : bindArm catalog source sourceName ty arms.isEmpty arm = .ok bound)
    (hcoverage : coveragePattern catalog sourceName bound.1 ty = .ok coverage) :
    ∃ rest d, bindArms catalog limit source sourceName ty (index + 1)
      (matrix ++ [[coverage]]) arms d =
      .ok ((rest, matrix'), b') := by
  rw [bindArms_cons, harm, ok_bind, hcoverage, ok_bind] at h
  obtain ⟨⟨useful, d⟩, -, h⟩ := of_bind h
  cases useful with
  | false => cases h
  | true =>
    obtain ⟨⟨⟨rest, matrix''⟩, d'⟩, hrest, h⟩ := of_bind h
    cases h
    exact ⟨rest, d, hrest⟩

theorem tree_never_binds {out : List (MatchPattern × List Column)} :
    bindPatternsWith limit treeCatalog "t" (.ref 3) treeArms ≠ .ok out := by
  intro h
  obtain ⟨source, hsource, h⟩ := of_bind h
  obtain ⟨⟨⟨bound, matrix⟩, b⟩, harms, ⟨witness, b'⟩, hrun, -⟩ := of_bind₂ h
  have hshaped : ShapedMatrix treeCatalog matrix [.ref 3] := by
    have hout : ArmsOutcome treeCatalog "t" (.ref 3) [] treeArms _ :=
      bindArms_outcome tree_declared.1 tree_declared.2 hsource limit 0 .nil limit
    obtain ⟨_, he, -⟩ | ⟨_, _, _, hok, -, hrows⟩ | ⟨_, he, -⟩ := hout
    · cases harms.symm.trans he
    · cases harms.symm.trans hok
      exact rows_shaped hrows
    · cases harms.symm.trans he
  cases tree_source.symm.trans hsource
  obtain ⟨_, _, harms⟩ := bindArms_cons_ok harms (by rfl) (by rfl)
  obtain ⟨_, _, harms⟩ := bindArms_cons_ok harms (by rfl) (by rfl)
  obtain ⟨_, _, harms⟩ := bindArms_cons_ok harms (by rfl) (by rfl)
  cases harms
  exact treeRows_endless (settles_of_run tree_declared.1
    ⟨forall_mem_singleton.mpr tree_declared.2, hshaped, .cons (.wildcard _) .nil⟩
    ((congrFun (patternIsUseful_wildcards limit treeRows [.ref 3]) b).trans (run_map hrun)))

end UnionId.Matching
