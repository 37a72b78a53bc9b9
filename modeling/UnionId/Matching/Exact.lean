import UnionId.Matching.Bound

/-!
# Coverage checks are exact

A match binds exactly when every branch binds against the source type, the branches
accept every typed value between them, and each branch accepts a value that no earlier
one accepts. So after binding some branch is selected for every typed value.

## Main results

* `bindPatternsWith_exact` — the outcome of binding under any budget.
* `bindPatterns_exact` — the same under the fixed budget, with the selection of a branch.
-/
namespace UnionId.Matching

open Lib Catalog List

/-- A bound pattern accepts a value. -/
def Accepts (pattern : MatchPattern) (value : Value) : Prop :=
  (matchBindings value pattern).isSome = true

/-- Some branch accepts each typed value. -/
def Exhaustive (catalog : Catalog) (ty : ScalarType) (arms : List MatchPattern) : Prop :=
  ∀ v, catalog.Typed ty v → ∃ p ∈ arms, Accepts p v

/-- Each branch accepts a typed value that neither `earlier` nor a branch before it
accepts. -/
def ReachableAfter (catalog : Catalog) (ty : ScalarType) :
    List MatchPattern → List MatchPattern → Prop
  | _, [] => True
  | earlier, p :: arms =>
    (∃ v, catalog.Typed ty v ∧ Accepts p v ∧ ∀ q ∈ earlier, ¬Accepts q v) ∧
      ReachableAfter catalog ty (earlier ++ [p]) arms

def Reachable (catalog : Catalog) (ty : ScalarType) (arms : List MatchPattern) : Prop :=
  ReachableAfter catalog ty [] arms

/-- A branch binds against the source type. -/
def Binds (catalog : Catalog) (sourceName : String) (ty : ScalarType)
    (arm p : MatchPattern) : Prop :=
  ∃ columns, bindNestedPattern catalog arm ty sourceName = .ok (p, columns)

section
variable {catalog : Catalog} {sourceName : String} {ty : ScalarType} {source : MatchSource}

/-! ## One branch -/

/-- Patterns that accept anything. -/
def CatchAll (p : MatchPattern) : Prop := p = .wildcard ∨ ∃ name, p = .binding name

variable {p arm : MatchPattern}

theorem CatchAll.accepts (h : CatchAll p) (v : Value) : Accepts p v := by
  obtain rfl | ⟨name, rfl⟩ := h <;> rfl

theorem bindArm_eq_ok (hsource : matchSource catalog ty sourceName = .ok source) {last : Bool}
    {r : MatchPattern × List Column}
    (h : bindArm catalog source sourceName ty last arm = .ok r) :
    bindNestedPattern catalog arm ty sourceName = .ok r := by
  cases arm with
  | wildcard | binding =>
    cases last with
    | false => cases h
    | true => exact h
  | constructor name payload tag => simpa only [bindArm, bindNestedPattern, hsource,
      ok_bind] using h
  | record | tuple => cases h

/-- A branch that binds against the type is refused only for its place. -/
theorem bindArm_error (hsource : matchSource catalog ty sourceName = .ok source) {last : Bool}
    {e : Error} (h : bindArm catalog source sourceName ty last arm = .error e)
    (hbinds : Binds catalog sourceName ty arm p) : CatchAll p ∧ last = false := by
  obtain ⟨columns, hbinds⟩ := hbinds
  cases arm with
  | wildcard =>
    cases hbinds
    cases last with
    | false => exact ⟨.inl rfl, rfl⟩
    | true => cases h
  | binding name =>
    cases hbinds
    cases last with
    | false => exact ⟨.inr ⟨name, rfl⟩, rfl⟩
    | true => cases h
  | constructor name payload tag =>
    have hrun : bindArm catalog source sourceName ty last (.constructor name payload tag) =
        .ok (p, columns) := by
      simpa only [bindArm, bindNestedPattern, hsource, ok_bind] using hbinds
    rw [hrun] at h
    cases h
  | record fields rest =>
    obtain ⟨u, hu, hsource⟩ := of_bind hsource
    simp only [bindNestedPattern, hu, ok_bind] at hbinds
    cases u <;> first | cases hbinds | cases hsource
  | tuple patterns =>
    obtain ⟨u, hu, hsource⟩ := of_bind hsource
    simp only [bindNestedPattern, hu, ok_bind] at hbinds
    cases u <;> first | cases hbinds | cases hsource

/-- A row stands for a bound branch. -/
def RowOf (catalog : Catalog) (ty : ScalarType) (p : MatchPattern) (row : List CoveragePattern) :
    Prop :=
  ∃ coverage, row = [coverage] ∧ Shaped catalog ty coverage ∧
    ∀ v, catalog.Typed ty v → (Accepts p v ↔ Covers fieldsOf coverage v)

theorem rowOf_bindable {context : String} {columns : List Column}
    (h : Bindable catalog context ty p columns) :
    ∃ coverage, coveragePattern catalog context p ty = .ok coverage ∧
      RowOf catalog ty p [coverage] := by
  obtain ⟨-, coverage, hcoverage, hshaped, hruns⟩ := h
  refine ⟨coverage, hcoverage, coverage, rfl, hshaped, fun v hv => ?_⟩
  obtain ⟨hyes, hno⟩ := hruns v hv [] fun _ _ => rfl
  constructor
  · intro haccepts
    by_contra hcovers
    simp [Accepts, matchBindings, hno hcovers] at haccepts
  · intro hcovers
    obtain ⟨b, hb, -⟩ := hyes hcovers
    simp [Accepts, matchBindings, hb]

section Rows
variable {earlier : List MatchPattern} {matrix : List (List CoveragePattern)}
  (hrows : Forall₂ (RowOf catalog ty) earlier matrix)
include hrows

theorem rows_shaped : ShapedMatrix catalog matrix [ty] := by
  intro row hrow
  obtain ⟨p, -, coverage, rfl, hshaped, -⟩ := exists_of_mem_right hrows hrow
  exact .cons hshaped .nil

/-- No row covers a value exactly when no branch accepts it. -/
theorem rows_cover {v : Value} (hv : catalog.Typed ty v) :
    (∀ row ∈ matrix, ¬CoversAll fieldsOf row [v]) ↔ ∀ q ∈ earlier, ¬Accepts q v := by
  constructor
  · intro h q hq haccepts
    obtain ⟨row, hrow, coverage, rfl, -, hiff⟩ := exists_of_mem_left hrows hq
    exact h _ hrow (coversAll_cons.mpr ⟨(hiff v hv).mp haccepts, coversAll_nil.mpr rfl⟩)
  · intro h row hrow hcovers
    obtain ⟨q, hq, coverage, rfl, -, hiff⟩ := exists_of_mem_right hrows hrow
    exact h q hq ((hiff v hv).mpr (coversAll_cons.mp hcovers).1)

theorem useful_row {p : MatchPattern} {coverage : CoveragePattern}
    (hp : RowOf catalog ty p [coverage]) : IsUseful catalog matrix [coverage] [ty] ↔
      ∃ v, catalog.Typed ty v ∧ Accepts p v ∧ ∀ q ∈ earlier, ¬Accepts q v := by
  obtain ⟨_, heq, -, hiff⟩ := hp
  cases heq
  constructor
  · rintro ⟨vs, hvs, hcovers, hnone⟩
    obtain ⟨v, rest, hv, hrest, rfl⟩ := forall₂_cons_left_iff.mp hvs
    obtain rfl := forall₂_nil_left_iff.mp hrest
    exact ⟨v, hv, (hiff v hv).mpr (coversAll_cons.mp hcovers).1, (rows_cover hrows hv).mp hnone⟩
  · rintro ⟨v, hv, haccepts, hnone⟩
    exact ⟨[v], .cons hv .nil, coversAll_cons.mpr ⟨(hiff v hv).mp haccepts, coversAll_nil.mpr rfl⟩,
      (rows_cover hrows hv).mpr hnone⟩

theorem not_useful_wildcard :
    ¬IsUseful catalog matrix [.wildcard] [ty] ↔ Exhaustive catalog ty earlier := by
  constructor
  · intro h v hv
    by_contra hnone
    push Not at hnone
    exact h ⟨[v], .cons hv .nil, coversAll_cons.mpr ⟨covers_wildcard.mpr trivial,
      coversAll_nil.mpr rfl⟩, (rows_cover hrows hv).mpr hnone⟩
  · rintro h ⟨vs, hvs, -, hnone⟩
    obtain ⟨v, rest, hv, hrest, rfl⟩ := forall₂_cons_left_iff.mp hvs
    obtain rfl := forall₂_nil_left_iff.mp hrest
    obtain ⟨p, hp, haccepts⟩ := h v hv
    exact (rows_cover hrows hv).mp hnone p hp haccepts

end Rows

/-! ## All branches -/

theorem binds_unique : Relator.RightUnique (Binds catalog sourceName ty) := by
  rintro arm p q ⟨_, hp⟩ ⟨_, hq⟩
  cases hp.symm.trans hq
  rfl

/-- The branches bind, and each of them can be reached. -/
def Admissible (catalog : Catalog) (sourceName : String) (ty : ScalarType)
    (earlier arms bound : List MatchPattern) : Prop :=
  Forall₂ (Binds catalog sourceName ty) arms bound ∧ ReachableAfter catalog ty earlier bound

/-- After a branch that accepts anything, no other branch can be reached. -/
theorem not_admissible_of_catchAll {earlier arms bound : List MatchPattern}
    (hp : CatchAll p) (hbinds : Binds catalog sourceName ty arm p) (harms : arms ≠ []) :
    ¬Admissible catalog sourceName ty earlier (arm :: arms) bound := by
  rintro ⟨hall, hreach⟩
  obtain ⟨p', rest, hp', hrest, rfl⟩ := forall₂_cons_left_iff.mp hall
  obtain rfl := binds_unique hbinds hp'
  obtain ⟨arm', arms', rfl⟩ := exists_cons_of_ne_nil harms
  obtain ⟨q, rest', -, -, rfl⟩ := forall₂_cons_left_iff.mp hrest
  obtain ⟨-, ⟨v, -, -, hnone⟩, -⟩ := hreach
  exact hnone p (by simp) (hp.accepts v)

/-- What binding the branches comes to: a limit, branches that can be reached with
their rows, or a refusal of branches that are not admissible. -/
def ArmsOutcome (catalog : Catalog) (sourceName : String) (ty : ScalarType)
    (earlier arms : List MatchPattern)
    (result : Result ((List (MatchPattern × List Column) × List (List CoveragePattern)) × ℕ)) :
    Prop :=
  (∃ e, result = .error e ∧ IsLimit e) ∨
  (∃ out matrix b, result = .ok ((out, matrix), b) ∧
    Admissible catalog sourceName ty earlier arms (out.map Prod.fst) ∧
      Forall₂ (RowOf catalog ty) (earlier ++ out.map Prod.fst) matrix) ∨
  ∃ e, result = .error e ∧ ∀ bound, ¬Admissible catalog sourceName ty earlier arms bound

variable (hc : catalog.Declared) (hty : ty.Everywhere catalog.IsDeclared)
  (hsource : matchSource catalog ty sourceName = .ok source)
include hc hty hsource

omit hc hty hsource in
/-- One branch, with the budget written out. -/
theorem bindArms_cons (limit index : ℕ) (matrix : List (List CoveragePattern)) (arm : MatchPattern)
    (arms : List MatchPattern) (b : ℕ) :
    bindArms catalog limit source sourceName ty index matrix (arm :: arms) b = (do
      let bound ← bindArm catalog source sourceName ty arms.isEmpty arm
      let coverage ← coveragePattern catalog sourceName bound.1 ty
      let (useful, b) ← patternIsUseful catalog limit matrix [coverage] [ty] b
      if useful then do
        let ((rest, matrix), b) ← bindArms catalog limit source sourceName ty (index + 1)
          (matrix ++ [[coverage]]) arms b
        pure ((bound :: rest, matrix), b)
      else .error (unreachableBranch matrix coverage index)) := by
  rw [bindArms, run_lift_bind]
  refine bind_congr fun bound => ?_
  rw [run_lift_bind]
  refine bind_congr fun coverage => ?_
  rw [run_bind]
  refine bind_congr fun r => ?_
  obtain ⟨useful, b⟩ := r
  cases useful <;> rfl

theorem bindArms_outcome (limit index : ℕ) {earlier arms : List MatchPattern}
    {matrix : List (List CoveragePattern)}
    (hrows : Forall₂ (RowOf catalog ty) earlier matrix) (b : ℕ) :
    ArmsOutcome catalog sourceName ty earlier arms
      (bindArms catalog limit source sourceName ty index matrix arms b) := by
  induction arms generalizing index earlier matrix b with
  | nil => exact .inr (.inl ⟨[], matrix, b, rfl, ⟨.nil, trivial⟩, by simpa using hrows⟩)
  | cons arm arms ih =>
    cases harm : bindArm catalog source sourceName ty arms.isEmpty arm with
    | error e =>
      -- refused before its coverage is looked at
      refine .inr (.inr ⟨e, by rw [bindArms_cons, harm, error_bind], fun bound hadm => ?_⟩)
      obtain ⟨p, rest, hp, -, rfl⟩ := forall₂_cons_left_iff.mp hadm.1
      obtain ⟨hall, hlast⟩ := bindArm_error hsource harm hp
      have harms : arms ≠ [] := by simpa using hlast
      exact not_admissible_of_catchAll hall hp harms hadm
    | ok r =>
      obtain ⟨p, columns⟩ := r
      have hbind := bindArm_eq_ok hsource harm
      have hbindable := bindNestedPattern_bindable hc arm hty hbind sourceName
      obtain ⟨coverage, hcoverage, hrow⟩ := rowOf_bindable hbindable
      have hshaped : Shaped catalog ty coverage := by
        obtain ⟨_, heq, hshaped, -⟩ := hrow
        cases heq
        exact hshaped
      rw [bindArms_cons, harm, ok_bind, hcoverage, ok_bind]
      obtain ⟨⟨useful, b'⟩, hrun, huseful⟩ | ⟨e, hrun, hlimit⟩ :=
        patternIsUseful_returns hc limit (forall_mem_singleton.mpr hty)
          (rows_shaped hrows) (.cons hshaped .nil) b
      · rw [hrun, ok_bind]
        have hreach := huseful.trans (useful_row hrows hrow)
        cases useful with
        | false =>
          refine .inr (.inr ⟨_, rfl, fun bound hadm => ?_⟩)
          obtain ⟨p', rest, hp', -, rfl⟩ := forall₂_cons_left_iff.mp hadm.1
          obtain rfl := binds_unique hp' ⟨columns, hbind⟩
          exact absurd (hreach.mpr hadm.2.1) (by simp)
        | true =>
          have hrows' := rel_append hrows (.cons hrow .nil)
          obtain ⟨e, hrest, hlimit⟩ | ⟨out, matrix', b'', hrest, hadm, hall⟩ | ⟨e, hrest, hno⟩ :=
            ih (index + 1) hrows' b'
          · exact .inl ⟨e, by simp [hrest], hlimit⟩
          · refine .inr (.inl ⟨(p, columns) :: out, matrix', b'', by simp [hrest],
              ⟨?_, ?_, ?_⟩, ?_⟩)
            · exact .cons ⟨columns, hbind⟩ hadm.1
            · exact hreach.mp rfl
            · exact hadm.2
            · simpa using hall
          · refine .inr (.inr ⟨e, by simp [hrest], fun bound hadm => ?_⟩)
            obtain ⟨p', rest, hp', hrest', rfl⟩ := forall₂_cons_left_iff.mp hadm.1
            obtain rfl := binds_unique hp' ⟨columns, hbind⟩
            exact hno rest ⟨hrest', hadm.2.2⟩
      · rw [hrun, error_bind]
        exact .inl ⟨e, rfl, hlimit⟩

/-- **Binding a match is exact**: a limit stops it, or it succeeds exactly when the
branches bind, cover every typed value and can all be reached. -/
theorem bindPatternsWith_exact (limit : ℕ) (arms : List MatchPattern) :
    (∃ e, bindPatternsWith limit catalog sourceName ty arms = .error e ∧ IsLimit e) ∨
    (∃ out, bindPatternsWith limit catalog sourceName ty arms = .ok out ∧
      Admissible catalog sourceName ty [] arms (out.map Prod.fst) ∧
        Exhaustive catalog ty (out.map Prod.fst)) ∨
    ∃ e, bindPatternsWith limit catalog sourceName ty arms = .error e ∧
      ∀ bound, ¬(Admissible catalog sourceName ty [] arms bound ∧ Exhaustive catalog ty bound) := by
  simp only [bindPatternsWith, hsource, ok_bind]
  obtain ⟨e, hrun, hlimit⟩ | ⟨out, matrix, b, hrun, hadm, hrows⟩ | ⟨e, hrun, hno⟩ :=
    bindArms_outcome hc hty hsource limit 0 Forall₂.nil limit
  · exact .inl ⟨e, by rw [hrun, error_bind], hlimit⟩
  · rw [hrun, ok_bind]
    obtain ⟨⟨witness, b'⟩, hwitness, hiff⟩ | ⟨e, hwitness, hlimit⟩ :=
      uncoveredPatterns_returns hc limit (forall_mem_singleton.mpr hty)
        (rows_shaped hrows) b
    · rw [hwitness, ok_bind]
      have hexhaustive := not_useful_wildcard hrows
      cases witness with
      | none => exact .inr (.inl ⟨out, rfl, hadm,
          hexhaustive.mp fun h => by simpa using hiff.mpr h⟩)
      | some witness =>
        have hleft : ¬Exhaustive catalog ty (out.map Prod.fst) := fun h =>
          hexhaustive.mpr h (hiff.mp rfl)
        have hno : ∀ bound, ¬(Admissible catalog sourceName ty [] arms bound ∧
            Exhaustive catalog ty bound) := by
          rintro bound ⟨hbound, h⟩
          obtain rfl : bound = out.map Prod.fst :=
            right_unique_forall₂' binds_unique hbound.1 hadm.1
          exact hleft h
        cases missingTopLevelConstructors catalog limit ty matrix b' with
        | error e => exact .inr (.inr ⟨e, rfl, hno⟩)
        | ok r => exact .inr (.inr ⟨nonExhaustive r.1 witness, rfl, hno⟩)
    · exact .inl ⟨e, by rw [hwitness, error_bind], hlimit⟩
  · exact .inr (.inr ⟨e, by rw [hrun, error_bind], fun bound h => hno bound h.1⟩)

end

theorem selectArm_isSome {α : Type} {v : Value} {arms : List (MatchPattern × α)} :
    (selectArm v arms).isSome = true ↔ ∃ p ∈ arms.map Prod.fst, Accepts p v := by
  induction arms with
  | nil => simp [selectArm]
  | cons arm arms ih =>
    obtain ⟨p, result⟩ := arm
    cases h : matchBindings v p with
    | none => simp [selectArm, Accepts, h, ih]
    | some bindings => simp [selectArm, Accepts, h]

/-- **Coverage checks are exact.** Unless a limit stops it, binding a match succeeds
exactly when every branch binds against the source type, the branches accept every
typed value, and each of them accepts a value that no earlier one accepts. Then some
branch is selected for every typed value. -/
theorem bindPatterns_exact {catalog : Catalog} (hc : catalog.Everywhere ScalarType.Distinct)
    (hfinite : catalog.validateFiniteTypes = .ok ()) {ty : ScalarType}
    (hty : ty.Everywhere ScalarType.Distinct)
    (hrefs : catalog.validateTypeReferences MAX_DEPTH ty = .ok ()) {sourceName : String}
    {source : MatchSource} (hsource : matchSource catalog ty sourceName = .ok source)
    (arms : List MatchPattern) :
    (∃ e, bindPatterns catalog sourceName ty arms = .error e ∧ IsLimit e) ∨
    (((∃ out, bindPatterns catalog sourceName ty arms = .ok out) ↔
        ∃ bound, Forall₂ (Binds catalog sourceName ty) arms bound ∧
          Exhaustive catalog ty bound ∧ Reachable catalog ty bound) ∧
      ∀ out, bindPatterns catalog sourceName ty arms = .ok out →
        Forall₂ (Binds catalog sourceName ty) arms (out.map Prod.fst) ∧
          ∀ v, catalog.Typed ty v → (selectArm v out).isSome = true) := by
  have hdeclared := declared_of_validateFiniteTypes hc hfinite
  obtain ⟨e, hrun, hlimit⟩ | ⟨out, hrun, hadm, hall⟩ | ⟨e, hrun, hno⟩ :=
    bindPatternsWith_exact hdeclared (declared_of_validate hty hrefs) hsource
      MAX_COVERAGE_STEPS arms
  · exact .inl ⟨e, hrun, hlimit⟩
  · refine .inr ⟨⟨fun _ => ⟨_, hadm.1, hall, hadm.2⟩, fun _ => ⟨out, hrun⟩⟩, fun out' hrun' => ?_⟩
    cases hrun.symm.trans hrun'
    exact ⟨hadm.1, fun v hv => selectArm_isSome.mpr (hall v hv)⟩
  · refine .inr ⟨⟨fun ⟨out, hout⟩ => ?_, fun ⟨bound, hbinds, hall, hreach⟩ => ?_⟩, fun out hout =>
      ?_⟩
    · cases hrun.symm.trans hout
    · exact absurd ⟨⟨hbinds, hreach⟩, hall⟩ (hno bound)
    · cases hrun.symm.trans hout

def optionArms : List MatchPattern :=
  [.constructor "None" .unit none, .constructor "Some" (.positional [.wildcard]) none]

theorem bindPatterns_exact_option :
    (∃ e, bindPatterns .empty "flag" (.option .bool) optionArms = .error e ∧ IsLimit e) ∨
    (((∃ out, bindPatterns .empty "flag" (.option .bool) optionArms = .ok out) ↔
        ∃ bound, Forall₂ (Binds .empty "flag" (.option .bool)) optionArms bound ∧
          Exhaustive .empty (.option .bool) bound ∧ Reachable .empty (.option .bool) bound) ∧
      ∀ out, bindPatterns .empty "flag" (.option .bool) optionArms = .ok out →
        Forall₂ (Binds .empty "flag" (.option .bool)) optionArms (out.map Prod.fst) ∧
          ∀ v, Catalog.Typed .empty (.option .bool) v → (selectArm v out).isSome = true) := by
  have hbool : (ScalarType.option .bool).Everywhere ScalarType.Distinct :=
    .node trivial fun part hpart => mem_singleton.mp hpart ▸ .leaf trivial rfl
  have hsource : matchSource .empty (.option .bool) "flag" = .ok (.option .bool) := rfl
  exact bindPatterns_exact (everywhere_empty _) (by rfl) hbool (by rfl) hsource optionArms

/-- A variant with a record of two fields. -/
def twoFields : ScalarType :=
  .enum [⟨"A", [.record [⟨"a", .int, none, 1⟩, ⟨"b", .int, none, 2⟩]], 3⟩]

/-- The branch that names one field, without `..`. -/
def oneField : MatchPattern :=
  .constructor "A" (.record [("a", .wildcard)] false) (some (.variant 3))

theorem oneField_accepts {v : Value} (hv : Catalog.Typed .empty twoFields v) :
    Accepts oneField v := by
  obtain ⟨variant, hmem, args, rfl, hargs⟩ := typed_enum.mp hv
  obtain rfl := mem_singleton.mp hmem
  obtain ⟨record, rest, hrecord, hrest, rfl⟩ := forall₂_cons_left_iff.mp hargs
  obtain rfl := forall₂_nil_left_iff.mp hrest
  obtain ⟨fields, rfl, -, -, hfields⟩ := typed_record.mp hrecord
  obtain ⟨a, ha, -⟩ := hfields ⟨"a", .int, none, 1⟩ (by simp)
  simp only at ha
  simp [Accepts, matchBindings, oneField, matchValuePattern, matchPayload, matchFields,
    Value.unwrapped, ha]

/-- The matcher does not ask for `..`, but binding does: a single branch that accepts
every value is refused. -/
theorem bindPatterns_refuses_omitted :
    Exhaustive .empty twoFields [oneField] ∧ Reachable .empty twoFields [oneField] ∧
      bindPatterns .empty "p" twoFields [oneField] = fails
        "record pattern for constructor 'A' omits b; add '..' to ignore them" := by
  refine ⟨fun v hv => ⟨oneField, by simp, oneField_accepts hv⟩, ⟨?_, trivial⟩, by rfl⟩
  have hint : Catalog.Typed .empty .int (.int 0) := ⟨1, 0, rfl⟩
  have hnames : ([⟨"a", .int, none, 1⟩, ⟨"b", .int, none, 2⟩] : List Column).map (fun c => c.name)
      |>.Nodup := by decide
  obtain ⟨fields, hfields, -⟩ := exists_fields hnames (.cons hint (.cons hint .nil))
  have hv : Catalog.Typed .empty twoFields (.enum "A" [.record fields] 3) :=
    typed_enum.mpr ⟨_, mem_singleton_self _, _, rfl,
      .cons (typed_record.mpr ⟨fields, rfl, hfields⟩) .nil⟩
  exact ⟨_, hv, oneField_accepts hv, by simp⟩

end UnionId.Matching
