import UnionId.Model.RowTyping
import UnionId.OrderedKey.Typed
import UnionId.Query.Predicate

/-!
# Partial indexes are used soundly

The atoms of a predicate and the atoms of a filter are compared as syntax: by the
identities of a field and by equal literals. On typed rows this is justified by the
evaluator. An atom that a filter contributes holds on every row the filter accepts, and
equivalent atoms hold on the same rows.

## Main results

* `collectAtoms_evaluate` — the atoms of a predicate against the evaluated condition.
* `collectQueryAtoms_holds` — the atoms of a filter hold where the filter does.
* `indexPredicate_sound` — implied predicates hold, and predicates mean their condition.
-/
namespace UnionId

open Lib Catalog List IndexPredicateAtom

/-- A schema as the catalog binds it: distinct identities and bound types. -/
structure SchemaBound (schema : List Column) : Prop where
  ids : (schema.map fun c => c.id).Nodup
  types : ∀ c ∈ schema, c.ty.Bound

variable {catalog : Catalog} {schema : List Column} {kind : String}

/-! ## What binding returns -/

variable {path : String} {ty : ScalarType} {v : Value} {fieldPath : List UInt64}

theorem referenceType_eq_ok
    (h : referenceType catalog schema path kind = .ok ty) :
    catalog.fieldType schema path = .ok ty := by
  unfold referenceType at h
  split at h
  · next hty =>
    cases h
    exact hty
  · split at h <;> cases h

theorem expecting_eq_ok {expected : Option ScalarType} {bound : Result BoundScalar}
    {r : BoundScalar} (h : expecting expected bound = .ok r) : bound = .ok r := by
  obtain ⟨⟨e, ty⟩, hbound, -, -, h⟩ := of_bind₂ h
  cases h
  exact hbound

theorem coerceArithmeticResult_eq_ok {w : Value}
    (h : coerceArithmeticResult catalog (some ty) v = .ok w) :
    catalog.coerce v ty "arithmetic result" = .ok w := by
  unfold coerceArithmeticResult at h
  split at h
  · cases h
  · next heq =>
    cases heq
    split at h
    · next hv =>
      cases h
      exact hv
    · split at h
      · split at h <;> cases h
      · cases h

section
variable [Builtins] {expected : Option ScalarType} {r : BoundScalar} {e : ScalarExpression}

theorem bindCall_eq_ok {name : String}
    {arguments : List ScalarExpression} {inferred : Inferred} {binders : Binders}
    (h : bindCall catalog expected name arguments inferred binders = .ok r) :
    ∃ arguments' ty, r = (.call name arguments', ty) := by
  unfold bindCall at h
  split at h
  · obtain ⟨-, -, h⟩ := of_bind (expecting_eq_ok h)
    unfold bindMapCall at h
    split at h
    · cases h
    · simp only [bind_eq_ok, pure_eq_ok, Except.ok.injEq] at h
      obtain ⟨_, -, _, -, _, -, _, -, _, -, rfl⟩ := h
      exact ⟨_, _, rfl⟩
  split at h
  · simp only [bindTemporalCall, bind_eq_ok, pure_eq_ok, Except.ok.injEq] at h
    obtain ⟨_, -, _, -, _, -, _, -, _, -, rfl⟩ := h
    exact ⟨_, _, rfl⟩
  split at h
  · next hname =>
    replace h := expecting_eq_ok h
    unfold bindToText at h
    split at h
    · simp only [bind_eq_ok, pure_eq_ok, Except.ok.injEq] at h
      obtain ⟨_, -, _, -, _, -, _, -, rfl⟩ := h
      exact ⟨_, _, by rw [hname]⟩
    · cases h
  split at h
  · simp only [bindDecimalCall, bind_eq_ok, pure_eq_ok, Except.ok.injEq] at h
    obtain ⟨_, -, _, -, _, -, _, -, _, -, _, -, _, -, rfl⟩ := h
    exact ⟨_, _, rfl⟩
  obtain ⟨-, h⟩ := of_required h
  replace h := expecting_eq_ok h
  simp only [bind_eq_ok, pure_eq_ok, Except.ok.injEq] at h
  obtain ⟨_, -, _, -, _, -, _, -, rfl⟩ := h
  exact ⟨_, _, rfl⟩

theorem bindScalar_reference {path : String}
    (h : bindScalar catalog schema kind (.reference path) expected = .ok r) :
    ∃ ty, r = (.reference path, ty) ∧ catalog.fieldType schema path = .ok ty := by
  obtain ⟨ty, hty, -, -, h⟩ := of_bind₂ h
  cases h
  exact ⟨ty, rfl, referenceType_eq_ok hty⟩

theorem eq_reference_of_bindScalar {path : String} {ty : ScalarType}
    (h : bindScalar catalog schema kind e expected = .ok (.reference path, ty)) :
    e = .reference path := by
  cases e with
  | reference path' =>
    obtain ⟨ty', heq, -⟩ := bindScalar_reference h
    cases heq
    rfl
  | parameter name ty' =>
    unfold bindScalar at h
    split at h
    · obtain ⟨-, -, h⟩ := of_bind h
      cases h
    · cases h
  | literal value =>
    unfold bindScalar at h
    cases expected <;> simp [bind_eq_ok] at h
  | call name arguments =>
    obtain ⟨_, _, heq⟩ := bindCall_eq_ok h
    cases heq
  | arithmetic left op right ty' =>
    simp only [bindScalar, bind_eq_ok] at h
    obtain ⟨_, -, _, -, signature, -, h⟩ := h
    cases signature <;> simp [bind_eq_ok] at h
  | _ => simp [bindScalar, bind_eq_ok] at h

theorem isLiteral_of_bindScalar : ∀ {e : ScalarExpression} {expected : Option ScalarType}
    {r : BoundScalar}, bindScalar catalog schema kind e expected = .ok r → r.1.isLiteral = true →
      e.isLiteral = true
  | .literal _, _, _, _, _ => rfl
  | .negate value ty, expected, r, h, hr => by
    simp only [bindScalar, bind_eq_ok, pure_eq_ok, Except.ok.injEq] at h
    obtain ⟨_, -, _, -, _, -, r', hvalue, _, -, rfl⟩ := h
    have hinner : value.isLiteral = true := isLiteral_of_bindScalar hvalue hr
    exact hinner
  | .reference _, _, _, h, hr => by
    obtain ⟨_, rfl, -⟩ := bindScalar_reference h
    cases hr
  | .parameter .., _, _, h, hr => by
    unfold bindScalar at h
    split at h
    · obtain ⟨-, -, rfl⟩ := of_bind_pure h
      cases hr
    · cases h
  | .ascribed .., _, _, h, hr => by
    simp only [bindScalar, bind_eq_ok, pure_eq_ok, Except.ok.injEq] at h
    obtain ⟨_, -, _, -, rfl⟩ := h
    cases hr
  | .call .., _, _, h, hr => by
    obtain ⟨_, _, rfl⟩ := bindCall_eq_ok h
    cases hr
  | .length _, _, _, h, hr => by
    simp only [bindScalar, bind_eq_ok, pure_eq_ok, Except.ok.injEq] at h
    obtain ⟨_, -, _, -, _, -, rfl⟩ := h
    cases hr
  | .arithmetic .., _, _, h, hr => by
    simp only [bindScalar, bind_eq_ok] at h
    obtain ⟨_, -, _, -, signature, -, h⟩ := h
    cases signature with
    | none =>
      simp only [bind_eq_ok, pure_eq_ok, Except.ok.injEq] at h
      obtain ⟨_, -, _, -, _, -, _, -, _, -, _, -, rfl⟩ := h
      cases hr
    | some signature =>
      simp only [bind_eq_ok, pure_eq_ok, Except.ok.injEq] at h
      obtain ⟨_, -, _, -, _, -, rfl⟩ := h
      cases hr

/-! ## Literals -/

/-- An expression whose value depends neither on the row nor on the budget. -/
def Evaluates (catalog : Catalog) (e : ScalarExpression) (r : Result Value) : Prop :=
  ∀ (values : String → Option Value) (b : ℕ),
    evaluateScalar catalog values e b = r.map fun v => (some v, b)

/-- **A bound literal has one value, and it is a coerced one.** -/
theorem bindScalar_literal : ∀ {e e' : ScalarExpression} {ty ty' : ScalarType},
    e.isLiteral = true → bindScalar catalog schema kind e (some ty) = .ok (e', ty') →
      ∃ r, Evaluates catalog e' r ∧ ∀ v, r = .ok v → ∃ raw path, catalog.coerce raw ty path = .ok v
  | .literal value, e', ty, ty', _, h => by
    simp only [bindScalar, bind_eq_ok, pure_eq_ok, Except.ok.injEq] at h
    obtain ⟨v, hv, _, -, heq⟩ := h
    cases heq
    refine ⟨.ok v, fun _ _ => rfl, ?_⟩
    rintro _ ⟨⟩
    exact ⟨value, _, hv⟩
  | .negate value ty₀, e', ty, ty', he, h => by
    simp only [bindScalar, bind_eq_ok, pure_eq_ok, Except.ok.injEq] at h
    obtain ⟨_, -, result, hresult, _, -, ⟨inner, innerTy⟩, hvalue, _, -, heq⟩ := h
    cases heq
    cases hresult
    obtain ⟨r, hr, -⟩ := bindScalar_literal (e := value) he hvalue
    refine ⟨r >>= fun v => evaluateNegate v >>= coerceArithmeticResult catalog (some ty),
      fun values b => ?_, fun v hv => ?_⟩
    · rw [evaluateScalar, run_bind, hr values b]
      cases r with
      | error e => rfl
      | ok v =>
        simp only [Except.map, ok_bind, run_lift_bind]
        cases evaluateNegate v with
        | error e => rfl
        | ok raw =>
          cases hcoerce : coerceArithmeticResult catalog (some ty) raw with
          | error e => simp [hcoerce]
          | ok w => simp [hcoerce]; rfl
    · obtain ⟨x, -, raw, -, hv⟩ := of_bind₂ hv
      exact ⟨raw, _, coerceArithmeticResult_eq_ok hv⟩
  | .reference _, _, _, _, he, _ | .parameter .., _, _, _, he, _ | .ascribed .., _, _, _, he, _
  | .call .., _, _, _, he, _ | .length _, _, _, _, he, _ | .arithmetic .., _, _, _, he, _ => by
    cases he

/-- The value that collecting atoms finds is the value of the literal. -/
theorem Evaluates.eq_ok {r : Result Value} (h : Evaluates catalog e r)
    {v : Value} (hv : evaluateValue catalog (fun _ => none) e = .ok v) : r = .ok v := by
  obtain ⟨⟨w, b⟩, hw, rfl⟩ := of_bind_pure hv
  rw [evaluateScalarValue, run_bind, h] at hw
  cases r with
  | error e => cases hw
  | ok w' =>
    cases hw
    rfl

/-- Both sides of a comparison are bound under one type. -/
theorem bindCompare_eq_ok {left right : ScalarExpression} {op : CmpOp} {bound : BoolExpression}
    (h : bindCompare catalog schema kind left op right = .ok bound) :
    ∃ expected left' leftTy right' rightTy,
      bindScalar catalog schema kind left (some expected) = .ok (left', leftTy) ∧
      bindScalar catalog schema kind right (some expected) = .ok (right', rightTy) ∧
      bound = .compare left' op right' (some leftTy) ∧
      (∀ path, left = .reference path → expected = leftTy) := by
  simp only [bindCompare, bind_eq_ok, pure_eq_ok, Except.ok.injEq] at h
  obtain ⟨inferred, hleft, _, -, expected, hexpected, ⟨left', leftTy⟩, hbind, ⟨right', rightTy⟩,
    hright, -, -, -, -, rfl⟩ := h
  refine ⟨expected, left', leftTy, right', rightTy, hbind, hright, rfl, ?_⟩
  rintro path rfl
  simp only [inferScalar, bind_eq_ok, pure_eq_ok, Except.ok.injEq] at hleft
  obtain ⟨ty, hty, rfl⟩ := hleft
  obtain rfl : ty = expected := by
    simpa [ScalarExpression.isConstant, orInferred] using hexpected
  obtain ⟨ty', heq, hty'⟩ := bindScalar_reference hbind
  cases heq
  exact Except.ok.inj ((referenceType_eq_ok hty).symm.trans hty')

end

/-! ## Atoms -/

/-- An atom of a bound field, with a literal of its type. -/
structure AtomBound (catalog : Catalog) (schema : List Column)
    (atom : IndexPredicateAtom) : Prop where
  path : catalog.fieldPathIds schema atom.column = .ok atom.fieldPath
  typed : ∃ ty, catalog.fieldType schema atom.column = .ok ty ∧
    match atom with
    | .equal _ _ _ value => catalog.Typed ty value
    | _ => True

variable {x : Value} {a atom : IndexPredicateAtom}

theorem Typed.cmpEq_iff (hc : catalog.Sound) (hty : ty.Bound) {y : Value}
    (hx : catalog.Typed ty x) (hy : catalog.Typed ty y) : x.cmpEq y = true ↔ x = y := by
  obtain ⟨n, hx⟩ := hx
  obtain ⟨m, hy⟩ := hy
  exact (hx.mono (le_max_left n m)).cmpEq_iff hc.wellFormed hty.wellFormed
    (hy.mono (le_max_right n m))

/-- **Equivalent atoms hold on the same rows.** -/
theorem holds_congr (hc : catalog.Sound) (hschema : SchemaBound schema) (row : Fields)
    {b : IndexPredicateAtom} (ha : AtomBound catalog schema a) (hb : AtomBound catalog schema b)
    (h : a.equivalent b = true) : a.holds row = b.holds row := by
  unfold equivalent at h
  rw [Bool.and_eq_true, decide_eq_true_eq] at h
  obtain ⟨hpath, h⟩ := h
  have hcolumn : a.column = b.column :=
    fieldPathIds_injective hc.uniqueIds hschema.ids (fun c hc => (hschema.types c hc).uniqueIds)
      ha.path (hpath ▸ hb.path)
  obtain ⟨ty, hty, ha⟩ := ha.typed
  obtain ⟨ty', hty', hb⟩ := hb.typed
  rw [← hcolumn, hty] at hty'
  cases hty'
  unfold holds
  rw [← hcolumn]
  cases a <;> cases b <;> try cases h
  · rename_i l _ _ _ r
    obtain rfl := (Typed.cmpEq_iff hc (fieldType_bound hc hschema.types hty) ha hb).mp h
    rfl
  · rfl
  · rfl

theorem typed_none (h : catalog.Typed ty (.option none)) : ∃ item, ty = .option item := by
  obtain ⟨n, h⟩ := h
  cases n with
  | zero => cases h
  | succ n =>
    cases ty with
    | option item => exact ⟨item, rfl⟩
    | _ => simp [HasType] at h

theorem equalityAtom_holds (hc : catalog.Sound) (hty : catalog.fieldType schema path = .ok ty)
    (hbound : ty.Bound)
    (hpath : catalog.fieldPathIds schema path = .ok fieldPath)
    (hv : catalog.Typed ty v) (hfixed : ∀ label w, catalog.coerce v ty label = .ok w → w = v)
    (h : equalityAtom catalog path fieldPath ty v = .ok atom) :
    AtomBound catalog schema atom ∧ ∀ (row : Fields) (x : Value), rowField row path = some x →
      catalog.Typed ty x → atom.holds row = x.cmpEq v := by
  unfold equalityAtom at h
  split at h
  · cases h
    refine ⟨⟨hpath, ty, hty, trivial⟩, fun row x hx htyped => ?_⟩
    obtain ⟨item, rfl⟩ := typed_none hv
    have hiff := Typed.cmpEq_iff hc hbound htyped hv
    simp only [holds, column, hx]
    obtain rfl | ⟨y, rfl, -⟩ := typed_option.mp htyped
    · exact (hiff.mpr rfl).symm
    · have hne : (Value.option (some y)).cmpEq (.option none) = false :=
        Bool.eq_false_iff.mpr fun h => by cases hiff.mp h
      rw [hne]
      rfl
  · obtain ⟨w, hw, rfl⟩ := of_bind_pure h
    obtain rfl := hfixed _ w hw
    refine ⟨⟨hpath, ty, hty, hv⟩, fun row x hx _ => ?_⟩
    simp only [holds, column, hx]

theorem holds_presence {row : Fields} {o : Option Value}
    (hx : rowField row path = some x) (ho : x.unwrapped = .option o) (fieldPath : List UInt64) :
    (IndexPredicateAtom.isSome path fieldPath).holds row = o.isSome ∧
      (IndexPredicateAtom.isNone path fieldPath).holds row = !o.isSome := by
  simp only [holds, column, hx, ho]
  cases o <;> exact ⟨rfl, rfl⟩

theorem mem_presenceAtoms (h : a ∈ presenceAtoms path fieldPath v) :
    ∃ y, v = .option (some y) ∧ a = .isSome path fieldPath := by
  unfold presenceAtoms at h
  split at h
  · exact ⟨_, rfl, mem_singleton.mp h⟩
  · cases h

/-- The atoms of an equality in a filter: they hold where the values are equal. -/
theorem queryEquality_holds (hc : catalog.Sound) (hty : catalog.fieldType schema path = .ok ty)
    (hbound : ty.Bound)
    (hpath : catalog.fieldPathIds schema path = .ok fieldPath)
    (hv : catalog.Typed ty v) (h : atom = .equal path fieldPath ty v ∨
      (∃ o, v.unwrapped = .option o ∧ (o = none ∧ atom = .isNone path fieldPath ∨
        o.isSome = true ∧ atom = .isSome path fieldPath))) :
    AtomBound catalog schema atom ∧ ∀ (row : Fields) (x : Value), rowField row path = some x →
      catalog.Typed ty x → x.cmpEq v = true → atom.holds row = true := by
  obtain rfl | ⟨o, ho, ⟨rfl, rfl⟩ | ⟨hsome, rfl⟩⟩ := h
  · refine ⟨⟨hpath, ty, hty, hv⟩, fun row x hx _ heq => ?_⟩
    simpa only [holds, column, hx] using heq
  · refine ⟨⟨hpath, ty, hty, trivial⟩, fun row x hx hxt heq => ?_⟩
    obtain rfl := (Typed.cmpEq_iff hc hbound hxt hv).mp heq
    rw [(holds_presence hx ho fieldPath).2]
    rfl
  · refine ⟨⟨hpath, ty, hty, trivial⟩, fun row x hx hxt heq => ?_⟩
    obtain rfl := (Typed.cmpEq_iff hc hbound hxt hv).mp heq
    rw [(holds_presence hx ho fieldPath).1, hsome]

section
variable [Builtins] {path : String} {bound : BoolExpression}

/-- A field compared with a literal: the literal has the type of the field, and the
comparison is an equality of values. -/
theorem bindCompare_literal (hc : catalog.Sound) (hschema : SchemaBound schema)
    {right : ScalarExpression} (hright : right.isLiteral = true)
    (h : bindCompare catalog schema kind (.reference path) .eq right = .ok bound) :
    ∃ ty right', catalog.fieldType schema path = .ok ty ∧
      bound = .compare (.reference path) .eq right' (some ty) ∧
      (∃ rightTy, bindScalar catalog schema kind right (some ty) = .ok (right', rightTy)) ∧
      ∀ v, evaluateValue catalog (fun _ => none) right' = .ok v →
        catalog.Typed ty v ∧
          (∀ label, Returns (fun e => e.code = .E_TYPE) (catalog.coerce v ty label) (· = v)) ∧
          ∀ (row : Fields) (x : Value), rowField row path = some x →
            ∀ b, evaluate catalog row bound b = .ok (x.cmpEq v, b) := by
  obtain ⟨ty, left', leftTy, right', rightTy, hleft, hbind, rfl, hty⟩ := bindCompare_eq_ok h
  obtain rfl := hty path rfl
  obtain ⟨leftTy, heq, hty⟩ := bindScalar_reference hleft
  cases heq
  obtain ⟨r, hr, hcoerced⟩ := bindScalar_literal hright hbind
  have hwf := (fieldType_bound hc hschema.types hty).wellFormed
  refine ⟨ty, right', hty, rfl, ⟨rightTy, hbind⟩, fun v hv => ?_⟩
  obtain rfl := hr.eq_ok hv
  obtain ⟨raw, label, hraw⟩ := hcoerced v rfl
  have htyped := coerceInner_hasType hc.wellFormed hwf hraw
  refine ⟨⟨_, htyped⟩, htyped.returns_coerceInner hc.wellFormed hwf (.inr fun _ h => h),
    fun row x hx b => ?_⟩
  have hvalue : evaluateScalar catalog (rowField row) right' b = .ok (some v, b) := hr _ _
  simp only [evaluate, evaluateResolved, evaluateScalar, hx, run_bind, run_pure, ok_bind, hvalue]
  rfl

/-- The value of an option field decides both tests of it. -/
theorem evaluate_presence {row : Fields} {x : Value} {o : Option Value}
    (hx : rowField row path = some x) (ho : x.unwrapped = .option o) (b : ℕ) :
    evaluate catalog row (.isSome (.reference path)) b = .ok (o.isSome, b) ∧
      evaluate catalog row (.isNone (.reference path)) b = .ok (!o.isSome, b) := by
  simp only [evaluate, evaluateResolved, evaluateScalar, hx, run_bind, run_pure, ok_bind,
    optionPresence, ho]
  exact ⟨rfl, rfl⟩

theorem bindOption_eq_ok {value bound : ScalarExpression}
    (h : bindOption catalog schema kind value = .ok bound) :
    ∃ ty item, bindScalar catalog schema kind value none = .ok (bound, ty) ∧
      catalog.underlying ty = .ok (.option item) := by
  obtain ⟨⟨bound', ty⟩, hbind, u, hu, h⟩ := of_bind₂ h
  cases u with
  | option item =>
    cases h
    exact ⟨ty, item, hbind, hu⟩
  | _ => cases h

theorem bindOption_reference {bound : ScalarExpression}
    (h : bindOption catalog schema kind (.reference path) = .ok bound) : bound = .reference path ∧
      (∃ ty item, catalog.fieldType schema path = .ok ty ∧
        catalog.underlying ty = .ok (.option item)) ∧
      ∀ row, catalog.TypedFields schema row →
        ∃ x o, rowField row path = some x ∧ x.unwrapped = .option o := by
  obtain ⟨ty, item, hbind, hu⟩ := bindOption_eq_ok h
  obtain ⟨ty', heq, hty⟩ := bindScalar_reference hbind
  cases heq
  refine ⟨rfl, ⟨ty, item, hty, hu⟩, fun row hrow => ?_⟩
  obtain ⟨x, hx, htyped⟩ := rowField_typed hrow hty
  obtain hnone | ⟨y, hsome, -⟩ := typed_option.mp ((underlying_typed hu).1 x htyped)
  · exact ⟨x, none, hx, hnone⟩
  · exact ⟨x, some y, hx, hsome⟩

inductive ConditionAtom (catalog : Catalog) (schema : List Column) :
    BoolExpression → IndexPredicateAtom → Prop
  | isNone {path : String} {ids : List UInt64} {ty item : ScalarType} :
    catalog.fieldPathIds schema path = .ok ids → catalog.fieldType schema path = .ok ty →
    catalog.underlying ty = .ok (.option item) →
    ConditionAtom catalog schema (.isNone (.reference path)) (.isNone path ids)
  | isSome {path : String} {ids : List UInt64} :
    catalog.fieldPathIds schema path = .ok ids →
    ConditionAtom catalog schema (.isSome (.reference path)) (.isSome path ids)
  | compare {path : String} {ids : List UInt64} {ty rightTy : ScalarType}
      {right right' : ScalarExpression} {stated : Option ScalarType} {v : Value}
      {atom : IndexPredicateAtom} : right.isLiteral = true →
    catalog.fieldPathIds schema path = .ok ids → catalog.fieldType schema path = .ok ty →
    bindScalar catalog schema "field" right (some ty) = .ok (right', rightTy) →
    evaluateValue catalog (fun _ => none) right' = .ok v →
    equalityAtom catalog path ids ty v = .ok atom →
    ConditionAtom catalog schema (.compare (.reference path) .eq right stated) atom

/-- The conditions that a conjunction joins. -/
def BoolExpression.conjuncts : BoolExpression → List BoolExpression
  | .and left right => left.conjuncts ++ right.conjuncts
  | condition => [condition]

variable {raw : BoolExpression}

/-- The atoms of a predicate are bound, one for each condition, and together they mean the
condition. -/
theorem collectAtoms_evaluate (hc : catalog.Sound) (hschema : SchemaBound schema)
    {atoms : List IndexPredicateAtom} (hshape : validateShape raw = .ok ())
    (hbind : Expression.bind catalog schema raw = .ok bound)
    (h : collectAtoms catalog schema bound = .ok atoms) :
    (∀ a ∈ atoms, AtomBound catalog schema a) ∧
      Forall₂ (ConditionAtom catalog schema) raw.conjuncts atoms ∧
      ∀ row, catalog.TypedFields schema row →
        ∀ b, evaluate catalog row bound b = .ok (atoms.all fun a => a.holds row, b) := by
  unfold Expression.bind at hbind
  induction raw generalizing bound atoms with
  | and left right ihl ihr =>
    obtain ⟨⟨⟩, hleft, hright⟩ := of_bind hshape
    obtain ⟨left', hbl, right', hbr, hbind⟩ := of_bind₂ hbind
    cases hbind
    obtain ⟨ls, hls, rs, hrs, h⟩ := of_bind₂ h
    cases h
    obtain ⟨hlbound, hlatoms, hleval⟩ := ihl hleft hbl hls
    obtain ⟨hrbound, hratoms, hreval⟩ := ihr hright hbr hrs
    refine ⟨fun a ha => (mem_append.mp ha).elim (hlbound a) (hrbound a),
      rel_append hlatoms hratoms, fun row hrow b => ?_⟩
    have hl := hleval row hrow b
    have hr := hreval row hrow b
    unfold evaluate at hl hr ⊢
    rw [evaluateResolved, run_bind, hl, ok_bind, all_append]
    cases ls.all fun a => a.holds row with
    | false => rfl
    | true => exact hr
  | compare left op right ty =>
    unfold validateShape at hshape
    split at hshape
    · obtain ⟨hlit, hshape⟩ := of_required hshape
      obtain ⟨ty, right', hty, rfl, ⟨_, hscalar⟩, hvalue⟩ :=
        bindCompare_literal hc hschema hlit hbind
      simp only [collectAtoms] at h
      obtain ⟨-, h⟩ := of_required h
      obtain ⟨fieldPath, hpath, v, hv, h⟩ := of_bind₂ h
      obtain ⟨atom, hatom, rfl⟩ := of_bind_pure h
      obtain ⟨htyped, hfixed, heval⟩ := hvalue v hv
      obtain ⟨hab, hholds⟩ := equalityAtom_holds hc hty
        (fieldType_bound hc hschema.types hty) hpath htyped (fun label w hw =>
          (hfixed label).eq_of_ok hw) hatom
      refine ⟨by simpa using hab, .cons (.compare hlit hpath hty hscalar hv hatom) .nil,
        fun row hrow b => ?_⟩
      obtain ⟨x, hx, hxt⟩ := rowField_typed hrow hty
      simp only [all_cons, all_nil, Bool.and_true, hholds row x hx hxt]
      exact heval row x hx b
    · cases hshape
    · cases hshape
  | isNone value | isSome value =>
    cases value with
    | reference path =>
      obtain ⟨bound', hopt, rfl⟩ := of_bind_pure hbind
      obtain ⟨rfl, ⟨ty, item, hty, hu⟩, hrows⟩ := bindOption_reference hopt
      obtain ⟨fieldPath, hpath, rfl⟩ := of_bind_pure h
      refine ⟨by simpa using ⟨hpath, ty, hty, trivial⟩, .cons (by constructor <;> assumption) .nil,
        fun row hrow b => ?_⟩
      obtain ⟨x, o, hx, ho⟩ := hrows row hrow
      simp [evaluate_presence hx ho b, holds_presence hx ho fieldPath]
    | _ => cases hshape
  | _ => cases hshape

/-- The atoms of a filter are bound, and they hold where the filter does. -/
theorem collectQueryAtoms_holds (hc : catalog.Sound) (hschema : SchemaBound schema)
    {atoms : List IndexPredicateAtom}
    (hbind : Expression.bind catalog schema raw = .ok bound)
    (h : collectQueryAtoms catalog schema bound = .ok atoms) {a : IndexPredicateAtom}
    (ha : a ∈ atoms) : AtomBound catalog schema a ∧ ∀ row, catalog.TypedFields schema row →
      ∀ b b', evaluate catalog row bound b = .ok (true, b') → a.holds row = true := by
  unfold Expression.bind at hbind
  induction raw generalizing bound atoms with
  | and left right ihl ihr =>
    obtain ⟨left', hbl, hbind⟩ := of_bind hbind
    obtain ⟨right', hbr, hbind⟩ := of_bind hbind
    cases hbind
    obtain ⟨ls, hls, h⟩ := of_bind h
    obtain ⟨rs, hrs, h⟩ := of_bind h
    cases h
    have hboth : ∀ row b b', evaluate catalog row (.and left' right') b = .ok (true, b') →
        ∃ c, evaluate catalog row left' b = .ok (true, c) ∧
          evaluate catalog row right' c = .ok (true, b') := by
      intro row b b' heval
      obtain ⟨l, c, hl, heval⟩ := run_bind_eq_ok.mp heval
      cases l with
      | false => cases heval
      | true => exact ⟨c, hl, heval⟩
    obtain ha | ha := mem_append.mp ha
    · obtain ⟨hbound, hholds⟩ := ihl hbl hls ha
      refine ⟨hbound, fun row hrow b b' heval => ?_⟩
      obtain ⟨c, hl, -⟩ := hboth row b b' heval
      exact hholds row hrow b c hl
    · obtain ⟨hbound, hholds⟩ := ihr hbr hrs ha
      refine ⟨hbound, fun row hrow b b' heval => ?_⟩
      obtain ⟨c, -, hr⟩ := hboth row b b' heval
      exact hholds row hrow c b' hr
  | compare left op right _ =>
    obtain ⟨expected, left', leftTy, right', rightTy, hleft, hright, rfl, -⟩ :=
      bindCompare_eq_ok hbind
    cases left' with
    | reference path =>
      cases op with
      | eq =>
        obtain rfl := eq_reference_of_bindScalar hleft
        simp only [collectQueryAtoms] at h
        split at h
        · next hlit =>
          obtain ⟨ty, right', hty, heq, -, hvalue⟩ :=
            bindCompare_literal hc hschema (isLiteral_of_bindScalar hright hlit) hbind
          cases heq
          obtain ⟨fieldPath, hpath, v, hv, h⟩ := of_bind₂ h
          obtain ⟨htyped, hfixed, heval⟩ := hvalue v hv
          have hatom : a = .equal path fieldPath leftTy v ∨
              ∃ o, v.unwrapped = .option o ∧ (o = none ∧ a = .isNone path fieldPath ∨
                o.isSome = true ∧ a = .isSome path fieldPath) := by
            split at h
            · next hnone =>
              cases h
              exact .inr ⟨none, hnone, .inl ⟨rfl, mem_singleton.mp ha⟩⟩
            · obtain ⟨w, hw, h⟩ := of_bind h
              obtain rfl := (hfixed _).eq_of_ok hw
              cases h
              obtain ha | ha := mem_append.mp ha
              · obtain ⟨y, hsome, rfl⟩ := mem_presenceAtoms ha
                exact .inr ⟨some y, hsome, .inr ⟨rfl, rfl⟩⟩
              · exact .inl (mem_singleton.mp ha)
          obtain ⟨hbound, hholds⟩ := queryEquality_holds hc hty
            (fieldType_bound hc hschema.types hty) hpath htyped hatom
          refine ⟨hbound, fun row hrow b b' htrue => ?_⟩
          obtain ⟨x, hx, hxt⟩ := rowField_typed hrow hty
          rw [heval row x hx b] at htrue
          exact hholds row x hx hxt (Prod.mk.inj (Except.ok.inj htrue)).1
        · cases h
          cases ha
      | _ =>
        cases h
        cases ha
    | _ =>
      cases h
      cases ha
  | isNone value | isSome value =>
    obtain ⟨value', hopt, rfl⟩ := of_bind_pure hbind
    cases value' with
    | reference path =>
      obtain ⟨_, _, hvalue, -⟩ := bindOption_eq_ok hopt
      obtain rfl := eq_reference_of_bindScalar hvalue
      obtain ⟨-, ⟨ty, -, hty, -⟩, hrows⟩ := bindOption_reference hopt
      obtain ⟨fieldPath, hpath, rfl⟩ := of_bind_pure h
      obtain rfl := mem_singleton.mp ha
      refine ⟨⟨hpath, ty, hty, trivial⟩, fun row hrow b b' htrue => ?_⟩
      obtain ⟨x, o, hx, ho⟩ := hrows row hrow
      simp only [evaluate_presence hx ho b, Except.ok.injEq, Prod.mk.injEq] at htrue
      rw [← htrue.1]
      simp only [holds_presence hx ho fieldPath]
    | _ =>
      cases h
      cases ha
  | contains collection item =>
    simp only [bindInScope, bindContains, bind_eq_ok, pure_eq_ok, Except.ok.injEq] at hbind
    obtain ⟨_, -, _, -, _, -, _, -, rfl⟩ := hbind
    cases h
    cases ha
  | membership item collection negated =>
    simp only [bindInScope, bindMembership, bind_eq_ok, pure_eq_ok, Except.ok.injEq] at hbind
    obtain ⟨_, -, _, -, _, -, _, -, _, -, _, -, rfl⟩ := hbind
    cases h
    cases ha
  | value | any | all | or =>
    obtain ⟨_, -, _, -, hbind⟩ := of_bind₂ hbind
    cases hbind
    cases h
    cases ha
  | not value =>
    obtain ⟨_, -, rfl⟩ := of_bind_pure hbind
    cases h
    cases ha

end

/-! ## Normal forms -/

section
variable {S : IndexPredicateAtom → Prop} {p : IndexPredicateAtom → Bool}
  {atoms : List IndexPredicateAtom} {a kept : IndexPredicateAtom}

theorem mem_dedupAtoms_go (h : a ∈ dedupAtoms.go kept atoms) : a ∈ atoms := by
  induction atoms generalizing kept with
  | nil => cases h
  | cons b atoms ih =>
    unfold dedupAtoms.go at h
    split at h
    · exact mem_cons_of_mem _ (ih h)
    · obtain rfl | h := mem_cons.mp h
      · exact mem_cons_self
      · exact mem_cons_of_mem _ (ih h)

theorem mem_dedupAtoms (h : a ∈ dedupAtoms atoms) : a ∈ atoms := by
  cases atoms with
  | nil => cases h
  | cons b atoms =>
    obtain rfl | h := mem_cons.mp h
    · exact mem_cons_self
    · exact mem_cons_of_mem _ (mem_dedupAtoms_go h)

/-- Dropping equivalent atoms changes nothing, where equivalent atoms agree. -/
theorem dedupAtoms_go_all (hp : ∀ a b, S a → S b → a.equivalent b = true → p a = p b)
    (hkept : S kept) (hatoms : ∀ a ∈ atoms, S a) :
    (p kept && (dedupAtoms.go kept atoms).all p) = (p kept && atoms.all p) := by
  induction atoms generalizing kept with
  | nil => rfl
  | cons b atoms ih =>
    obtain ⟨hb, hatoms⟩ := forall_mem_cons.mp hatoms
    unfold dedupAtoms.go
    split
    · next heq =>
      rw [ih hkept hatoms, all_cons, hp b kept hb hkept heq, ← Bool.and_assoc, Bool.and_self]
    · rw [all_cons, all_cons, ih hb hatoms]

theorem dedupAtoms_all (hp : ∀ a b, S a → S b → a.equivalent b = true → p a = p b)
    (hatoms : ∀ a ∈ atoms, S a) :
    (dedupAtoms atoms).all p = atoms.all p := by
  cases atoms with
  | nil => rfl
  | cons a atoms =>
    obtain ⟨ha, hatoms⟩ := forall_mem_cons.mp hatoms
    exact dedupAtoms_go_all hp ha hatoms

end

section
variable [Builtins] [PredicateKeys]

/-- A bound predicate: its atoms are bound, and it matches where its condition is true. -/
theorem IndexPredicate.bind_eq_ok (hc : catalog.Sound) (hschema : SchemaBound schema)
    {raw : BoolExpression} {P : IndexPredicate}
    (h : IndexPredicate.bind catalog schema raw = .ok P) :
    (∀ a ∈ P.atoms, AtomBound catalog schema a) ∧
      ∃ bound, Expression.bind catalog schema raw = .ok bound ∧
        ∀ row, catalog.TypedFields schema row →
          ∀ b, evaluate catalog row bound b = .ok (P.«matches» row, b) := by
  obtain ⟨⟨⟩, hshape, h⟩ := Lib.of_bind h
  obtain ⟨bound, hbind, h⟩ := Lib.of_bind h
  obtain ⟨atoms, hatoms, h⟩ := Lib.of_bind h
  split at h
  · cases h
  obtain ⟨⟨⟩, -, h⟩ := Lib.of_bind h
  cases h
  obtain ⟨hbound, -, heval⟩ := collectAtoms_evaluate hc hschema hshape hbind hatoms
  have hperm := mergeSort_perm atoms le
  have hsorted : ∀ a ∈ atoms.mergeSort le, AtomBound catalog schema a :=
    fun a ha => hbound a (hperm.mem_iff.mp ha)
  refine ⟨fun a ha => hsorted a (mem_dedupAtoms ha), bound, hbind, fun row hrow b => ?_⟩
  rw [heval row hrow b, IndexPredicate.matches,
    dedupAtoms_all (fun a b => holds_congr hc hschema row) hsorted, hperm.all_eq]

/-- **Partial indexes are used soundly.** A predicate that the atoms of the filters imply
matches every typed row on which the filters are true. And a predicate matches a typed
row exactly when its condition is true there. -/
theorem indexPredicate_sound (hc : catalog.Sound) (hschema : SchemaBound schema)
    {raw : BoolExpression} {P : IndexPredicate}
    (hP : IndexPredicate.bind catalog schema raw = .ok P)
    {row : Fields} (hrow : catalog.TypedFields schema row) :
    (∀ (raws filters : List BoolExpression) (atoms : List (List IndexPredicateAtom)),
      raws.mapM (Expression.bind catalog schema) = .ok filters →
      filters.mapM (collectQueryAtoms catalog schema) = .ok atoms →
      P.impliedBy atoms.flatten = true →
      (∀ filter ∈ filters, ∃ b b', evaluate catalog row filter b = .ok (true, b')) →
        P.«matches» row = true) ∧
    ∃ bound, Expression.bind catalog schema raw = .ok bound ∧
      ∀ b, evaluate catalog row bound b = .ok (P.«matches» row, b) := by
  obtain ⟨hatomsP, bound, hbind, heval⟩ := IndexPredicate.bind_eq_ok hc hschema hP
  refine ⟨fun raws filters atoms hraws hatoms himplied htrue => ?_, bound, hbind, heval row hrow⟩
  have hfilters : ∀ f ∈ filters, ∃ raw, Expression.bind catalog schema raw = .ok f := by
    intro f hf
    obtain ⟨raw, -, h⟩ := exists_of_mem_right (mapM_eq_ok_iff.mp hraws) hf
    exact ⟨raw, h⟩
  refine all_eq_true.mpr fun a ha => ?_
  obtain ⟨candidate, hcandidate, heq⟩ := any_eq_true.mp (all_eq_true.mp himplied a ha)
  obtain ⟨collected, hcollected, hmem⟩ := mem_flatten.mp hcandidate
  obtain ⟨f, hf, hcollect⟩ := exists_of_mem_right (mapM_eq_ok_iff.mp hatoms) hcollected
  obtain ⟨fraw, hfraw⟩ := hfilters f hf
  obtain ⟨b, b', htrue⟩ := htrue f hf
  obtain ⟨hbound, hholds⟩ := collectQueryAtoms_holds hc hschema hfraw hcollect hmem
  rw [holds_congr hc hschema row (hatomsP a ha) hbound heq]
  exact hholds row hrow b b' htrue

end

/-- An index on the open rows serves a query for the open rows. -/
theorem indexPredicate_sound_text :
    ∃ (_ : Builtins) (_ : PredicateKeys) (P : IndexPredicate),
      IndexPredicate.bind .empty [⟨"kind", .text, none, 1⟩]
        (.compare (.reference "kind") .eq (.literal (.text "open")) none) = .ok P ∧
      P.«matches» [("kind", .text "open")] = true := by
  let _ : Builtins :=
    ⟨fun _ l _ => l, fun _ _ => pure (), fun _ => 1, fun _ _ _ => pure (.bool true)⟩
  let _ : PredicateKeys := ⟨fun rank _ => [rank.toUInt8]⟩
  have hids : Catalog.empty.fieldPathIds [⟨"kind", .text, none, 1⟩] "kind" = .ok [1] :=
    fieldPathIds_single rfl rfl
  have hty : Catalog.empty.fieldType [⟨"kind", .text, none, 1⟩] "kind" = .ok .text := rfl
  have hcoerce : ∀ label, Catalog.empty.coerce (.text "open") .text label = .ok (.text "open") :=
    fun _ => rfl
  have hexpr : Expression.bind .empty [⟨"kind", .text, none, 1⟩]
      (.compare (.reference "kind") .eq (.literal (.text "open")) none) =
        .ok (.compare (.reference "kind") .eq (.literal (.text "open")) (some .text)) := by
    simp [Expression.bind, bindInScope, bindCompare, inferScalar, bindScalar, referenceType, hty,
      orInferred, ScalarExpression.isConstant, requireExpected, requireSameOperands, sameType,
      requireOrderable, hcoerce]
  have hvalue : evaluateValue .empty (fun _ => none) (.literal (.text "open")) =
      .ok (.text "open") :=
    rfl
  have hbind : IndexPredicate.bind .empty [⟨"kind", .text, none, 1⟩]
      (.compare (.reference "kind") .eq (.literal (.text "open")) none) =
        .ok ⟨[.equal "kind" [1] .text (.text "open")]⟩ := by
    simp [IndexPredicate.bind, validateShape, ScalarExpression.isLiteral, hexpr, collectAtoms, hids,
      hvalue, equalityAtom, hcoerce, MAX_INDEX_PREDICATE_ATOMS, normalizeAtoms, dedupAtoms,
      dedupAtoms.go, checkConflicts, conflictsWith]
  have hquery : collectQueryAtoms .empty [⟨"kind", .text, none, 1⟩]
      (.compare (.reference "kind") .eq (.literal (.text "open")) (some .text)) =
        .ok [.equal "kind" [1] .text (.text "open")] := by
    simp [collectQueryAtoms, ScalarExpression.isLiteral, hids, hvalue, hcoerce, presenceAtoms,
      Value.unwrapped]
  refine ⟨inferInstance, inferInstance, _, hbind,
    (indexPredicate_sound sound_empty ⟨by simp, ?_⟩ hbind ⟨?_, ?_, ?_⟩).1
      [_] [_] [_] (mapM_eq_ok_iff.mpr (.cons hexpr .nil)) (mapM_eq_ok_iff.mpr (.cons hquery .nil))
      rfl ?_⟩
  · simpa using ⟨.text, .leaf trivial rfl⟩
  · simp [KeysSorted]
  · simp
  · simpa using ⟨1, _, rfl⟩
  · simp only [mem_singleton, forall_eq]
    exact ⟨0, 0, rfl⟩

end UnionId
