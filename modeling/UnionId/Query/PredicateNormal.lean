import UnionId.Model.Finite
import UnionId.Query.PredicateSound

/-!
# Normal forms of partial predicates

Declaring a partial index normalises its condition. Two conditions on one field that
exclude each other are refused as a contradiction, and the normal form identifies the
index. Both rest on the atoms alone: no typed row satisfies two conflicting atoms, and a
list without conflicts has one sorted form.

An equality with `None` becomes the test `is_none`, but only where the literal is bound to
a plain `None`. A field of a named option type binds it to a value of that type, which
stays an equality.

## Main results

* `normalize_sound` — contradictions are real, and one meaning has one identity.
* `named_none_contradiction` — a satisfiable condition that is refused.
-/
namespace UnionId

open Lib Catalog Std List IndexPredicateAtom

variable {catalog : Catalog} {schema : List Column}

/-! ## Conditions and their atoms -/

/-- The source text `path == None`. -/
def equalsNone (path : String) : BoolExpression :=
  .compare (.reference path) .eq (.literal (.enum "None" [] 0)) none

/-- `path == None` in the form of `is_none path`. -/
def BoolExpression.presenceForm : BoolExpression → BoolExpression
  | .compare (.reference path) .eq (.literal (.enum "None" [] 0)) none => .isNone (.reference path)
  | condition => condition

/-- The same conditions in any order and number, with either form of `is_none`. -/
def SameConditions (left right : BoolExpression) : Prop :=
  ∀ condition, condition ∈ left.conjuncts.map BoolExpression.presenceForm ↔
    condition ∈ right.conjuncts.map BoolExpression.presenceForm

/-- What binding a condition collects before it normalises. -/
def boundAtoms [Builtins] (catalog : Catalog) (schema : List Column) (condition : BoolExpression) :
    Result (List IndexPredicateAtom) := do
  validateShape condition
  let bound ← Expression.bind catalog schema condition
  collectAtoms catalog schema bound

variable {atoms : List IndexPredicateAtom} {a b : IndexPredicateAtom} {ty : ScalarType}

theorem boundAtoms_eq_ok [Builtins] {condition : BoolExpression} :
    boundAtoms catalog schema condition = .ok atoms ↔ validateShape condition = .ok () ∧
      ∃ bound, Expression.bind catalog schema condition = .ok bound ∧
        collectAtoms catalog schema bound = .ok atoms := by
  simp only [boundAtoms, bind_eq_ok]
  constructor
  · rintro ⟨⟨⟩, h⟩
    exact h
  · exact fun h => ⟨(), h⟩

/-- No field of a named option type is compared with a literal that stands for its `None`. -/
def UnnamedNones (catalog : Catalog) (schema : List Column) (condition : BoolExpression) : Prop :=
  ∀ path literal stated id value,
    .compare (.reference path) .eq (.literal literal) stated ∈ condition.conjuncts →
    catalog.fieldType schema path = .ok (.ref id) →
    catalog.coerce literal (.ref id) "expression literal" = .ok value →
    value.unwrapped ≠ .option none

theorem typed_named {id : UInt64} {v : Value} (h : catalog.Typed ty (.named id v)) :
    ty = .ref id := by
  obtain ⟨n, h⟩ := h
  cases n with
  | zero => cases h
  | succ n =>
    cases ty with
    | ref id' =>
      obtain ⟨_, _, heq, -⟩ := h
      cases heq
      rfl
    | _ => simp [HasType] at h

/-- An equality that is collected is not one with a `None`. -/
theorem UnnamedNones.unwrapped_ne [Builtins] {raw : BoolExpression}
    (hplain : UnnamedNones catalog schema raw) (hc : catalog.Sound) (hschema : SchemaBound schema)
    (hall : Forall₂ (ConditionAtom catalog schema) raw.conjuncts atoms) {column : String}
    {path : List UInt64} {value : Value} (ha : .equal column path ty value ∈ atoms) :
    value.unwrapped ≠ .option none := by
  intro hnone
  obtain ⟨d, hd, hda⟩ := exists_of_mem_right hall ha
  cases hda with
  | @compare _ _ _ _ right right' _ v _ hlit hids hty hright hv hatom =>
    have hwf := (fieldType_bound hc hschema.types hty).wellFormed
    unfold equalityAtom at hatom
    split at hatom
    · cases hatom
    · next hne =>
      obtain ⟨w, hw, heq⟩ := of_bind_pure hatom
      cases heq
      have htyped := coerceInner_hasType hc.wellFormed hwf hw
      cases right with
      | literal literal =>
        simp only [bindScalar, bind_eq_ok, pure_eq_ok, Except.ok.injEq] at hright
        obtain ⟨v', hv', _, -, heq⟩ := hright
        cases heq
        cases hv
        obtain rfl := (coerceInner_hasType hc.wellFormed hwf hv').eq_of_coerceInner
          hc.wellFormed hwf hw
        cases value with
        | named id inner =>
          obtain rfl := typed_named ⟨_, htyped⟩
          exact hplain _ _ _ id _ hd hty hv' hnone
        | option o =>
          cases hnone
          exact hne rfl
        | _ => cases hnone
      | negate inner stated =>
        simp only [bindScalar, bind_eq_ok, pure_eq_ok, Except.ok.injEq] at hright
        obtain ⟨_, -, result, hresult, _, hnegatable, -⟩ := hright
        cases hresult
        obtain ⟨u, hu, hnegatable⟩ := of_bind hnegatable
        obtain ⟨item, rfl⟩ := typed_none (hnone ▸ (underlying_typed hu).1 _ ⟨_, htyped⟩)
        cases hnegatable
      | _ => cases hlit

/-! ## Conflicts -/

theorem exists_of_conflictsWith (h : conflictsWith a atoms = true) :
    ∃ b ∈ atoms, a.fieldPath = b.fieldPath ∧ a.conflicts b = true := by
  induction atoms with
  | nil => cases h
  | cons b atoms ih =>
    simp only [conflictsWith, Bool.and_eq_true, decide_eq_true_eq, Bool.or_eq_true] at h
    obtain ⟨hpath, hconflict | hrest⟩ := h
    · exact ⟨b, mem_cons_self, hpath, hconflict⟩
    · obtain ⟨c, hc, hconflict⟩ := ih hrest
      exact ⟨c, mem_cons_of_mem b hc, hconflict⟩

/-- Only atoms in conflict are refused. -/
theorem exists_conflict {e : Error} (h : checkConflicts atoms = .error e) :
    ∃ a ∈ atoms, ∃ b ∈ atoms, a.fieldPath = b.fieldPath ∧ a.conflicts b = true := by
  induction atoms with
  | nil => cases h
  | cons a atoms ih =>
    rw [checkConflicts] at h
    split at h
    · next hconflict =>
      obtain ⟨b, hb, hconflict⟩ := exists_of_conflictsWith hconflict
      exact ⟨a, mem_cons_self, b, mem_cons_of_mem a hb, hconflict⟩
    · obtain ⟨b, hb, c, hc, hconflict⟩ := ih h
      exact ⟨b, mem_cons_of_mem a hb, c, mem_cons_of_mem a hc, hconflict⟩

section
variable (hc : catalog.Sound) (hschema : SchemaBound schema)
include hc hschema

theorem AtomBound.column_eq (ha : AtomBound catalog schema a) (hb : AtomBound catalog schema b)
    (h : a.fieldPath = b.fieldPath) : a.column = b.column :=
  fieldPathIds_injective hc.uniqueIds hschema.ids (fun c hc => (hschema.types c hc).uniqueIds)
    ha.path (h ▸ hb.path)

/-- What an atom says about the value of its field. -/
def IndexPredicateAtom.Admits (x : Value) : IndexPredicateAtom → Prop
  | equal _ _ _ value => x = value
  | isNone .. => x.unwrapped = .option none
  | isSome .. => ∃ y, x.unwrapped = .option (some y)

theorem admits_of_holds (ha : AtomBound catalog schema a) {row : Fields} {x : Value}
    (hx : rowField row a.column = some x)
    (hrow : catalog.TypedFields schema row) (h : a.holds row = true) : a.Admits x := by
  obtain ⟨ty, hty, hvalue⟩ := ha.typed
  obtain ⟨x', hx', hxt⟩ := rowField_typed hrow hty
  cases hx.symm.trans hx'
  simp only [holds, hx] at h
  cases a with
  | equal column path ty' value =>
    exact (Typed.cmpEq_iff hc (fieldType_bound hc hschema.types hty) hxt hvalue).mp h
  | isNone column path =>
    dsimp only at h
    split at h
    · next hnone => exact hnone
    · cases h
  | isSome column path =>
    dsimp only at h
    split at h
    · next y hsome => exact ⟨y, hsome⟩
    · cases h

/-- **No value satisfies two atoms in conflict.** -/
theorem not_admits_of_conflicts {x : Value} (ha : AtomBound catalog schema a)
    (hplain : ∀ column path ty value, a = .equal column path ty value ∨
      b = .equal column path ty value →
      value.unwrapped ≠ .option none)
    (hconflict : a.conflicts b = true) (hax : a.Admits x) : ¬ b.Admits x := by
  intro hbx
  cases a with
  | equal column path ty value =>
    obtain rfl : x = value := hax
    cases b with
    | equal column' path' ty' value' =>
      obtain rfl : x = value' := hbx
      obtain ⟨ty, hty, hvalue⟩ := ha.typed
      have heq := (Typed.cmpEq_iff hc (fieldType_bound hc hschema.types hty) hvalue hvalue).mpr rfl
      simp [conflicts, heq] at hconflict
    | isNone column' path' => exact hplain _ _ _ _ (.inl rfl) hbx
    | isSome column' path' => cases hconflict
  | isNone column path =>
    cases b with
    | equal column' path' ty value => exact hplain _ _ _ _ (.inr rfl) (hbx ▸ hax)
    | isNone column' path' => cases hconflict
    | isSome column' path' =>
      obtain ⟨y, hsome⟩ := hbx
      cases hsome.symm.trans hax
  | isSome column path =>
    obtain ⟨y, hsome⟩ := hax
    cases b with
    | isNone column' path' => cases hsome.symm.trans hbx
    | _ => cases hconflict

end

/-! ## Where the refusal comes from -/

/-- A result that is not refused as a contradiction. -/
def Uncontradicted {α : Type} (r : Result α) : Prop :=
  ∀ e, r = .error e → e.code ≠ .E_INDEX_PREDICATE_CONTRADICTION

namespace Uncontradicted

variable {α β : Type}

theorem ok (a : α) : Uncontradicted (.ok a) := fun _ h => by cases h

theorem fail {code : ErrorCode} (message : Message) (h : code ≠ .E_INDEX_PREDICATE_CONTRADICTION) :
    Uncontradicted (UnionId.fail code message : Result α) := by
  rintro _ ⟨⟩
  exact h

theorem of_returns {x : Result α} {P : α → Prop} {code : ErrorCode}
    (hx : Returns (fun e => e.code = code) x P) (h : code ≠ .E_INDEX_PREDICATE_CONTRADICTION) :
    Uncontradicted x := by
  obtain ⟨a, rfl, -⟩ | ⟨e, rfl, rfl⟩ := hx
  · exact ok a
  · rintro _ ⟨⟩
    exact h

theorem bind {x : Result α} {f : α → Result β} (hx : Uncontradicted x)
    (hf : ∀ a, x = .ok a → Uncontradicted (f a)) : Uncontradicted (x >>= f) := by
  cases hr : x with
  | error e =>
    rintro _ ⟨⟩
    exact hx e hr
  | ok a => exact hf a hr

theorem underlyingWithin (n : ℕ) (ty : ScalarType) :
    Uncontradicted (catalog.underlyingWithin n ty) := by
  induction n generalizing ty with
  | zero => exact fail _ (by decide)
  | succ n ih =>
    cases ty with
    | ref id =>
      refine bind ?_ fun d _ => ih d.ty
      unfold definition
      split
      · exact ok _
      · exact fail _ (by decide)
    | _ => exact ok _

theorem pathIds (path : String) (columns : List Column) (parts : List String) :
    Uncontradicted (catalog.pathIds path columns parts) := by
  induction parts generalizing columns with
  | nil => exact ok _
  | cons part parts ih =>
    unfold Catalog.pathIds
    split
    · exact fail _ (by decide)
    · split
      · exact ok _
      · refine bind (bind (underlyingWithin _ _) fun u _ => ?_) fun nested _ => ?_
        · split
          · exact ok _
          · exact fail _ (by decide)
        · exact bind (ih nested) fun ids _ => ok _

theorem validateShape (condition : BoolExpression) : Uncontradicted (validateShape condition) := by
  induction condition with
  | and left right ihl ihr => exact bind ihl fun _ _ => ihr
  | compare left op right stated =>
    unfold UnionId.validateShape
    split
    · split
      · exact ok _
      · exact fail _ (by decide)
    · exact fail _ (by decide)
    · exact fail _ (by decide)
  | isNone value | isSome value =>
    cases value with
    | reference path => exact ok _
    | _ => exact fail _ (by decide)
  | _ => exact fail _ (by decide)

/-- The literals of a condition that is true somewhere have values. -/
theorem collectAtoms [Builtins] (hc : catalog.Sound) (hschema : SchemaBound schema) {row : Fields}
    (hrow : catalog.TypedFields schema row) {raw bound : BoolExpression}
    (hshape : UnionId.validateShape raw = .ok ())
    (hbind : Expression.bind catalog schema raw = .ok bound) {b b' : ℕ}
    (h : evaluate catalog row bound b = .ok (true, b')) :
    Uncontradicted (collectAtoms catalog schema bound) := by
  induction raw generalizing bound b b' with
  | and left right ihl ihr =>
    obtain ⟨⟨⟩, hleft, hright⟩ := of_bind hshape
    obtain ⟨left', hbl, hbind⟩ := of_bind hbind
    obtain ⟨right', hbr, hbind⟩ := of_bind hbind
    cases hbind
    obtain ⟨l, c, hl, h⟩ := run_bind_eq_ok.mp h
    cases l with
    | false => cases h
    | true =>
      exact bind (ihl hleft hbl hl) fun ls _ => bind (ihr hright hbr h) fun rs _ => ok _
  | compare left op right stated =>
    unfold UnionId.validateShape at hshape
    split at hshape
    · obtain ⟨hlit, hshape⟩ := of_required hshape
      obtain ⟨ty, right', hty, rfl, ⟨_, hliteral⟩, hvalue⟩ :=
        bindCompare_literal hc hschema hlit hbind
      obtain ⟨r, hr, -⟩ := bindScalar_literal hlit hliteral
      obtain ⟨x, hx, -⟩ := rowField_typed hrow hty
      cases r with
      | error e =>
        simp only [evaluate, evaluateResolved, evaluateScalar, hx, run_bind, run_pure, ok_bind,
          hr (rowField row) b] at h
        cases h
      | ok v =>
        have hv : evaluateValue catalog (fun _ => none) right' = .ok v := by
          rw [evaluateValue, evaluateScalarValue, run_bind, hr]
          rfl
        obtain ⟨-, hfixed, -⟩ := hvalue v hv
        unfold UnionId.collectAtoms
        split
        · rw [hv]
          refine bind (pathIds _ _ _) fun ids _ => bind (ok v) fun w hw => bind ?_ fun _ _ => ok _
          cases hw
          unfold equalityAtom
          split
          · exact ok _
          · exact bind (of_returns (hfixed _) (by decide)) fun _ _ => ok _
        · exact fail _ (by decide)
    · cases hshape
    · cases hshape
  | isNone value | isSome value =>
    obtain ⟨value', -, rfl⟩ := of_bind_pure hbind
    cases value' with
    | reference path => exact bind (pathIds _ _ _) fun ids _ => ok _
    | _ => exact fail _ (by decide)
  | _ => cases hshape

end Uncontradicted

section
variable [Builtins] [PredicateKeys]

/-- **A contradiction is real**: where a condition is refused as one, no typed row satisfies
it. -/
theorem bind_contradiction (hc : catalog.Sound) (hschema : SchemaBound schema)
    {raw : BoolExpression}
    (hplain : UnnamedNones catalog schema raw) {e : Error}
    (h : IndexPredicate.bind catalog schema raw = .error e)
    (hcode : e.code = .E_INDEX_PREDICATE_CONTRADICTION) {bound : BoolExpression}
    (hbind : Expression.bind catalog schema raw = .ok bound) {row : Fields}
    (hrow : catalog.TypedFields schema row) (b b' : ℕ) :
    evaluate catalog row bound b ≠ .ok (true, b') := by
  intro htrue
  have hnot : ¬ Uncontradicted (IndexPredicate.bind catalog schema raw) := fun hun => hun e h hcode
  refine hnot (.bind (.validateShape raw) fun _ hshape => ?_)
  rw [hbind, ok_bind]
  refine .bind (.collectAtoms hc hschema hrow hshape hbind htrue) fun atoms hatoms => ?_
  split
  · exact .fail _ (by decide)
  · refine .bind (fun e' he' => ?_) fun _ _ => .ok _
    obtain ⟨hbound, hconditions, heval⟩ := collectAtoms_evaluate hc hschema hshape hbind hatoms
    obtain ⟨a, ha, a', ha', hpath, hconflict⟩ := exists_conflict he'
    have hmem : ∀ a, a ∈ dedupAtoms (atoms.mergeSort le) → a ∈ atoms :=
      fun a ha => (mergeSort_perm atoms _).mem_iff.mp (mem_dedupAtoms ha)
    have hall : ∀ a ∈ atoms, a.holds row = true := by
      rw [heval row hrow b, Except.ok.injEq, Prod.mk.injEq] at htrue
      exact all_eq_true.mp htrue.1
    replace ha := hmem a ha
    replace ha' := hmem a' ha'
    obtain ⟨ty, hty, -⟩ := (hbound a ha).typed
    obtain ⟨x, hx, -⟩ := rowField_typed hrow hty
    have hx' : rowField row a'.column = some x :=
      (hbound a ha).column_eq hc hschema (hbound a' ha') hpath ▸ hx
    refine absurd (admits_of_holds hc hschema (hbound a' ha') hx' hrow (hall a' ha'))
      (not_admits_of_conflicts hc hschema (hbound a ha) ?_ hconflict
        (admits_of_holds hc hschema (hbound a ha) hx hrow (hall a ha)))
    rintro column path ty value (rfl | rfl)
    · exact hplain.unwrapped_ne hc hschema hconditions ha
    · exact hplain.unwrapped_ne hc hschema hconditions ha'

end

/-! ## Identities -/

def IndexPredicateAtom.identity (atom : IndexPredicateAtom) :
    List UInt64 × ℕ × Option (ScalarType × IndexKey) :=
  (atom.fieldPath, atom.payload)

/-- An equality states the type of its field. -/
structure AtomTyped (catalog : Catalog) (schema : List Column)
    (atom : IndexPredicateAtom) : Prop where
  bound : AtomBound catalog schema atom
  valueType : ∀ column path ty value, atom = .equal column path ty value →
    catalog.fieldType schema column = .ok ty

theorem ConditionAtom.atomTyped [Builtins] {condition : BoolExpression} {atom : IndexPredicateAtom}
    (h : ConditionAtom catalog schema condition atom) (hbound : AtomBound catalog schema atom) :
    AtomTyped catalog schema atom := by
  refine ⟨hbound, ?_⟩
  rintro column path ty value rfl
  cases h with
  | compare _ hids hty hright hv hatom =>
    unfold equalityAtom at hatom
    split at hatom
    · cases hatom
    · obtain ⟨w, hw, hatom⟩ := of_bind hatom
      cases hatom
      exact hty

section
variable (hc : catalog.Sound) (hschema : SchemaBound schema)
include hc hschema

theorem equal_congr {column column' : String} {path path' : List UInt64} {ty' : ScalarType}
    {value value' : Value}
    (ha : AtomTyped catalog schema (.equal column path ty value))
    (hb : AtomTyped catalog schema (.equal column' path' ty' value')) (hpath : path = path')
    (h : value.cmpEq value' = true) : ty = ty' ∧ value = value' ∧ value'.cmpEq value = true := by
  obtain rfl : column = column' := ha.bound.column_eq hc hschema hb.bound hpath
  obtain rfl : ty = ty' :=
    Except.ok.inj ((ha.valueType _ _ _ _ rfl).symm.trans (hb.valueType _ _ _ _ rfl))
  obtain ⟨t, ht, hvalue⟩ := ha.bound.typed
  obtain ⟨t', ht', hvalue'⟩ := hb.bound.typed
  cases ht.symm.trans ht'
  obtain rfl := (Typed.cmpEq_iff hc (fieldType_bound hc hschema.types ht) hvalue hvalue').mp h
  exact ⟨rfl, rfl, h⟩

/-- **Equivalent atoms have one identity.** -/
theorem identity_congr (ha : AtomTyped catalog schema a) (hb : AtomTyped catalog schema b)
    (h : a.equivalent b = true) : a.identity = b.identity := by
  unfold equivalent at h
  rw [Bool.and_eq_true, decide_eq_true_eq] at h
  obtain ⟨hpath, h⟩ := h
  refine Prod.ext hpath ?_
  cases a <;> cases b <;> try cases h
  · obtain ⟨rfl, rfl, -⟩ := equal_congr hc hschema ha hb hpath h
    rfl
  · rfl
  · rfl

/-- Dropping repetitions keeps every identity. -/
theorem exists_identity {kept : IndexPredicateAtom}
    (htyped : ∀ a ∈ kept :: atoms, AtomTyped catalog schema a)
    (ha : a ∈ kept :: atoms) : ∃ b ∈ kept :: dedupAtoms.go kept atoms, b.identity = a.identity := by
  induction atoms generalizing kept with
  | nil => exact ⟨a, ha, rfl⟩
  | cons b atoms ih =>
    obtain ⟨hkept, htyped⟩ := forall_mem_cons.mp htyped
    obtain ⟨hb, hatoms⟩ := forall_mem_cons.mp htyped
    unfold dedupAtoms.go
    split
    · next heq =>
      obtain rfl | ha := mem_cons.mp ha
      · exact ⟨a, mem_cons_self, rfl⟩
      · obtain rfl | ha := mem_cons.mp ha
        · exact ⟨kept, mem_cons_self, (identity_congr hc hschema hb hkept heq).symm⟩
        · exact ih (forall_mem_cons.mpr ⟨hkept, hatoms⟩) (mem_cons_of_mem kept ha)
    · obtain rfl | ha := mem_cons.mp ha
      · exact ⟨a, mem_cons_self, rfl⟩
      · obtain ⟨c, hc, heq⟩ := ih htyped ha
        exact ⟨c, mem_cons_of_mem kept hc, heq⟩

end

section
variable [PredicateKeys]

/-- The order of the atoms depends on their identities. -/
def identityOrder (i j : List UInt64 × ℕ × Option (ScalarType × IndexKey)) : Ordering :=
  (List.compareLex compare i.1 j.1).then (List.compareLex compare
    (PredicateKeys.atomPayloadKey i.2.1 i.2.2) (PredicateKeys.atomPayloadKey j.2.1 j.2.2))

instance : TransCmp identityOrder :=
  have _ : TransCmp fun i j : List UInt64 × ℕ × Option (ScalarType × IndexKey) =>
      List.compareLex compare i.1 j.1 :=
    { eq_swap := OrientedCmp.eq_swap, isLE_trans := TransCmp.isLE_trans }
  have _ : TransCmp fun i j : List UInt64 × ℕ × Option (ScalarType × IndexKey) =>
      List.compareLex compare (PredicateKeys.atomPayloadKey i.2.1 i.2.2)
        (PredicateKeys.atomPayloadKey j.2.1 j.2.2) :=
    { eq_swap := OrientedCmp.eq_swap, isLE_trans := TransCmp.isLE_trans }
  inferInstanceAs (TransCmp (compareLex _ _))

theorem le_eq (a b : IndexPredicateAtom) : a.le b = (identityOrder a.identity b.identity).isLE := by
  cases a <;> cases b <;> rfl

theorem le_trans_atom (a b c : IndexPredicateAtom) (hab : a.le b = true) (hbc : b.le c = true) :
    a.le c = true := by
  rw [le_eq] at hab hbc ⊢
  exact TransCmp.isLE_trans hab hbc

theorem le_total_atom (a b : IndexPredicateAtom) : (a.le b || b.le a) = true := by
  have hswap : identityOrder b.identity a.identity = (identityOrder a.identity b.identity).swap :=
    OrientedCmp.eq_swap
  rw [le_eq, le_eq, hswap]
  cases identityOrder a.identity b.identity <;> rfl

section
variable (hc : catalog.Sound) (hschema : SchemaBound schema)
  (hkeys : ∀ op op' arg arg',
    PredicateKeys.atomPayloadKey op arg = PredicateKeys.atomPayloadKey op' arg' → op = op')
include hc hschema hkeys

/-- Neighbours in the normal form differ. -/
theorem identityOrder_lt {a b : IndexPredicateAtom} (ha : AtomTyped catalog schema a)
    (hb : AtomTyped catalog schema b)
    (hle : a.le b = true) (hnew : b.equivalent a = false)
    (hfree : a.fieldPath = b.fieldPath → a.conflicts b = false) :
    identityOrder a.identity b.identity = .lt := by
  cases horder : identityOrder a.identity b.identity with
  | lt => rfl
  | gt => simp [le_eq, horder] at hle
  | eq =>
    obtain ⟨hpath, hpayload⟩ := Ordering.then_eq_eq.mp horder
    have hpath : a.fieldPath = b.fieldPath := LawfulEqCmp.eq_of_compare hpath
    have hop : a.payload.1 = b.payload.1 := hkeys _ _ _ _ (LawfulEqCmp.eq_of_compare hpayload)
    have hfree := hfree hpath
    refine absurd hnew (Bool.not_eq_false _ ▸ ?_)
    unfold equivalent
    rw [Bool.and_eq_true, decide_eq_true_eq]
    refine ⟨hpath.symm, ?_⟩
    cases a <;> cases b <;> try cases hop
    · exact (equal_congr hc hschema ha hb hpath (by simpa [conflicts] using hfree)).2.2
    · rfl
    · rfl

variable {atoms : List IndexPredicateAtom}

/-- **The normal form is strictly sorted.** -/
theorem isChain_dedup {kept : IndexPredicateAtom}
    (htyped : ∀ a ∈ kept :: atoms, AtomTyped catalog schema a)
    (hsorted : (kept :: atoms).Pairwise fun a b => a.le b = true)
    (hfree : checkConflicts (kept :: dedupAtoms.go kept atoms) = .ok ()) :
    List.IsChain (fun a b => identityOrder a.identity b.identity = .lt)
      (kept :: dedupAtoms.go kept atoms) := by
  induction atoms generalizing kept with
  | nil => exact .singleton kept
  | cons b atoms ih =>
    obtain ⟨hkept, htyped⟩ := forall_mem_cons.mp htyped
    obtain ⟨hb, hatoms⟩ := forall_mem_cons.mp htyped
    obtain ⟨hle, hrest⟩ := pairwise_cons.mp hsorted
    unfold dedupAtoms.go at hfree ⊢
    split at hfree
    · next heq =>
      rw [if_pos heq]
      refine ih (forall_mem_cons.mpr ⟨hkept, hatoms⟩) ?_ hfree
      exact hsorted.sublist (.cons_cons kept (sublist_cons_self b atoms))
    · next hne =>
      rw [if_neg hne]
      rw [checkConflicts] at hfree
      obtain ⟨hconflict, hfree⟩ := of_refused hfree
      simp only [conflictsWith, Bool.and_eq_true, decide_eq_true_eq, Bool.or_eq_true, not_and,
        not_or, Bool.not_eq_true] at hconflict
      refine .cons_cons ?_ (ih htyped hrest hfree)
      exact identityOrder_lt hc hschema hkeys hkept hb (hle b mem_cons_self)
        (Bool.not_eq_true _ ▸ hne) fun hpath => (hconflict hpath).1

theorem normalizeAtoms_identity {P : IndexPredicate}
    (htyped : ∀ a ∈ atoms, AtomTyped catalog schema a) (h : normalizeAtoms atoms = .ok P) :
    (P.atoms.map (·.identity)).Pairwise (fun i j => identityOrder i j = .lt) ∧
      ∀ i, i ∈ P.atoms.map (·.identity) ↔ i ∈ atoms.map (·.identity) := by
  obtain ⟨⟨⟩, hfree, rfl⟩ := of_bind_pure h
  have hperm := mergeSort_perm atoms le
  have hsorted := pairwise_mergeSort le_trans_atom le_total_atom atoms
  have hmem : ∀ i, i ∈ atoms.map (·.identity) ↔
      i ∈ (atoms.mergeSort le).map (·.identity) :=
    fun i => ((hperm.map _).mem_iff).symm
  replace htyped : ∀ a ∈ atoms.mergeSort le, AtomTyped catalog schema a :=
    fun a ha => htyped a (hperm.mem_iff.mp ha)
  simp only [hmem]
  cases hs : atoms.mergeSort le with
  | nil => simp [dedupAtoms]
  | cons first rest =>
    rw [hs] at htyped hsorted hfree
    have hchain := isChain_dedup hc hschema hkeys htyped hsorted hfree
    have _ : Trans (fun a b : IndexPredicateAtom => identityOrder a.identity b.identity = .lt)
        (fun a b : IndexPredicateAtom => identityOrder a.identity b.identity = .lt)
        (fun a b : IndexPredicateAtom => identityOrder a.identity b.identity = .lt) :=
      ⟨TransCmp.lt_trans⟩
    refine ⟨pairwise_map.mpr (isChain_iff_pairwise.mp hchain), fun i =>
      ⟨fun hi => ?_, fun hi => ?_⟩⟩
    · obtain ⟨a, ha, rfl⟩ := mem_map.mp hi
      exact mem_map.mpr ⟨a, mem_dedupAtoms ha, rfl⟩
    · obtain ⟨a, ha, rfl⟩ := mem_map.mp hi
      obtain ⟨b, hb, heq⟩ := exists_identity hc hschema htyped ha
      exact mem_map.mpr ⟨b, hb, heq⟩

theorem normalizeAtoms_congr {atoms' : List IndexPredicateAtom} {P P' : IndexPredicate}
    (htyped : ∀ a ∈ atoms, AtomTyped catalog schema a)
    (htyped' : ∀ a ∈ atoms', AtomTyped catalog schema a)
    (hsame : ∀ i, i ∈ atoms.map (·.identity) ↔ i ∈ atoms'.map (·.identity))
    (h : normalizeAtoms atoms = .ok P) (h' : normalizeAtoms atoms' = .ok P') :
    P.atoms.map (·.identity) = P'.atoms.map (·.identity) := by
  obtain ⟨hlt, hmem⟩ := normalizeAtoms_identity hc hschema hkeys htyped h
  obtain ⟨hlt', hmem'⟩ := normalizeAtoms_identity hc hschema hkeys htyped' h'
  have hirrefl : ∀ i j, identityOrder i j = .lt → i ≠ j := by
    rintro i _ hij rfl
    exact absurd hij (by simp [ReflCmp.compare_self])
  refine List.Perm.eq_of_pairwise ?_ hlt hlt' ((perm_ext_iff_of_nodup (hlt.imp (hirrefl _ _))
    (hlt'.imp (hirrefl _ _))).mpr fun i => ?_)
  · intro i j _ _ hij hji
    exact absurd (TransCmp.lt_trans hij hji) fun h => hirrefl i i h rfl
  · rw [hmem, hmem', hsame]

end

end

/-! ## The two forms of `is_none` -/

/-- The literal `None` of an option type, named or not. -/
theorem unwrapped_of_coerce_none {n m : ℕ} {item : ScalarType} {v : Value} {label : Message}
    (h : catalog.coerceInner n (.enum "None" [] 0) ty label = .ok v)
    (hu : catalog.underlyingWithin m ty = .ok (.option item)) : v.unwrapped = .option none := by
  induction n generalizing ty m v with
  | zero => cases h
  | succ n ih =>
    cases m with
    | zero => cases hu
    | succ m =>
      cases ty with
      | ref id =>
        obtain ⟨d, hd, hu⟩ := of_bind hu
        obtain ⟨d', hd', h⟩ := of_bind h
        cases hd.symm.trans hd'
        obtain ⟨raw, hraw, h⟩ := of_bind h
        cases hraw
        obtain ⟨inner, hinner, rfl⟩ := of_bind_pure h
        rw [Value.unwrapped]
        exact ih hinner hu
      | option item =>
        cases h
        rfl
      | _ => cases hu

theorem presenceForm_eq {d d' : BoolExpression} (h : d.presenceForm = d'.presenceForm) :
    d = d' ∨ ∃ path, d = equalsNone path ∧ d' = .isNone (.reference path) ∨
      d = .isNone (.reference path) ∧ d' = equalsNone path := by
  unfold BoolExpression.presenceForm at h
  split at h <;> split at h
  · cases h
    exact .inl rfl
  · exact .inr ⟨_, .inl ⟨rfl, h.symm⟩⟩
  · exact .inr ⟨_, .inr ⟨h, rfl⟩⟩
  · exact .inl h

section
variable [Builtins] {a a' : IndexPredicateAtom} {raw : BoolExpression}

theorem ConditionAtom.eq {condition : BoolExpression}
    (h : ConditionAtom catalog schema condition a)
    (h' : ConditionAtom catalog schema condition a') :
    a = a' := by
  cases h with
  | isNone hids =>
    cases h' with
    | isNone hids' => rw [Except.ok.inj (hids.symm.trans hids')]
  | isSome hids =>
    cases h' with
    | isSome hids' => rw [Except.ok.inj (hids.symm.trans hids')]
  | compare _ hids hty hright hv hatom =>
    cases h' with
    | compare _ hids' hty' hright' hv' hatom' =>
      cases hids.symm.trans hids'
      cases hty.symm.trans hty'
      cases hright.symm.trans hright'
      cases hv.symm.trans hv'
      exact Except.ok.inj (hatom.symm.trans hatom')

variable (hc : catalog.Sound) (hschema : SchemaBound schema)
include hc hschema

theorem conditionAtom_none {path : String} (h : ConditionAtom catalog schema (equalsNone path) a)
    (h' : ConditionAtom catalog schema (.isNone (.reference path)) a')
    (hplain : ∀ column ids ty value, a = .equal column ids ty value →
      value.unwrapped ≠ .option none) :
    a = a' := by
  cases h' with
  | isNone hids' hty' hu =>
    cases h with
    | compare _ hids hty hright hv hatom =>
      cases hids.symm.trans hids'
      cases hty.symm.trans hty'
      simp only [bindScalar, bind_eq_ok, pure_eq_ok, Except.ok.injEq] at hright
      obtain ⟨w, hw, _, -, heq⟩ := hright
      cases heq
      cases hv
      have hwf := (fieldType_bound hc hschema.types hty).wellFormed
      unfold equalityAtom at hatom
      split at hatom
      · cases hatom
        rfl
      · obtain ⟨w', hw', rfl⟩ := of_bind_pure hatom
        obtain rfl := (coerceInner_hasType hc.wellFormed hwf hw).eq_of_coerceInner
          hc.wellFormed hwf hw'
        exact absurd (unwrapped_of_coerce_none hw hu) (hplain _ _ _ _ rfl)

theorem conditionAtom_congr {d d' : BoolExpression} (hform : d.presenceForm = d'.presenceForm)
    (h : ConditionAtom catalog schema d a) (h' : ConditionAtom catalog schema d' a')
    (hplain : ∀ column ids ty value, a = .equal column ids ty value ∨
      a' = .equal column ids ty value →
      value.unwrapped ≠ .option none) : a = a' := by
  obtain rfl | ⟨path, ⟨rfl, rfl⟩ | ⟨rfl, rfl⟩⟩ := presenceForm_eq hform
  · exact h.eq h'
  · exact conditionAtom_none hc hschema h h' fun _ _ _ _ heq => hplain _ _ _ _ (.inl heq)
  · exact (conditionAtom_none hc hschema h' h fun _ _ _ _ heq => hplain _ _ _ _ (.inr heq)).symm

theorem forall₂_conditionAtom {atoms : List IndexPredicateAtom}
    (h : boundAtoms catalog schema raw = .ok atoms) :
    Forall₂ (ConditionAtom catalog schema) raw.conjuncts atoms ∧
      ∀ a ∈ atoms, AtomTyped catalog schema a := by
  obtain ⟨hshape, bound, hbind, hatoms⟩ := boundAtoms_eq_ok.mp h
  obtain ⟨hbound, hall, -⟩ := collectAtoms_evaluate hc hschema hshape hbind hatoms
  refine ⟨hall, fun a ha => ?_⟩
  obtain ⟨d, -, hd⟩ := exists_of_mem_right hall ha
  exact hd.atomTyped (hbound a ha)

omit hc hschema in
theorem boundAtoms_of_bind [PredicateKeys] {P : IndexPredicate}
    (h : IndexPredicate.bind catalog schema raw = .ok P) :
    ∃ atoms, boundAtoms catalog schema raw = .ok atoms ∧ normalizeAtoms atoms = .ok P := by
  obtain ⟨⟨⟩, hshape, bound, hbind, h⟩ := of_bind₂ h
  obtain ⟨atoms, hatoms, h⟩ := of_bind h
  obtain ⟨-, h⟩ := of_refused h
  exact ⟨atoms, boundAtoms_eq_ok.mpr ⟨hshape, bound, hbind, hatoms⟩, h⟩

theorem mem_of_sameConditions {raw' : BoolExpression} (hplain : UnnamedNones catalog schema raw)
    (hplain' : UnnamedNones catalog schema raw') (hsame : SameConditions raw raw')
    {atoms atoms' : List IndexPredicateAtom} (h : boundAtoms catalog schema raw = .ok atoms)
    (h' : boundAtoms catalog schema raw' = .ok atoms') (ha : a ∈ atoms) : a ∈ atoms' := by
  have hall := (forall₂_conditionAtom hc hschema h).1
  have hall' := (forall₂_conditionAtom hc hschema h').1
  obtain ⟨d, hd, hda⟩ := exists_of_mem_right hall ha
  obtain ⟨d', hd', hform⟩ := mem_map.mp ((hsame _).mp (mem_map_of_mem hd))
  obtain ⟨a', ha', hda'⟩ := exists_of_mem_right hall'.flip hd'
  rw [conditionAtom_congr hc hschema hform.symm hda hda']
  · exact ha'
  · rintro column ids ty value (rfl | rfl)
    · exact hplain.unwrapped_ne hc hschema hall ha
    · exact hplain'.unwrapped_ne hc hschema hall' ha'

end

/-! ## A field with an option -/

theorem single_sound (h : ty.Bound) : (single ty).Sound := by
  refine ⟨Nat.zero_lt_succ 100, fun name d hd => ?_⟩
  have hmem := mem_valuesOf.mpr ⟨name, hd⟩
  rw [valuesOf_single, mem_singleton] at hmem
  exact hmem ▸ h

theorem normalizeAtoms_single [PredicateKeys] (atom : IndexPredicateAtom) :
    normalizeAtoms [atom] = .ok ⟨[atom]⟩ := by
  simp [normalizeAtoms, dedupAtoms, dedupAtoms.go, checkConflicts, conflictsWith]

/-- A named option of integers. -/
abbrev intOption : Catalog := single (.option .int)

/-- One field, of the named type or of its structure. -/
def optionField (ty : ScalarType) : List Column := [⟨"f", ty, none, 1⟩]

theorem fieldPathIds_optionField : intOption.fieldPathIds (optionField ty) "f" = .ok [1] :=
  fieldPathIds_single rfl rfl

section
variable [Builtins] {ty : ScalarType} {v : Value}

theorem bind_equalsNone (hsame : sameType ty ty = true)
    (hv : intOption.coerce (.enum "None" [] 0) ty "expression literal" = .ok v) :
    Expression.bind intOption (optionField ty) (equalsNone "f") =
      .ok (.compare (.reference "f") .eq (.literal v) (some ty)) := by
  have hty : intOption.fieldType (optionField ty) "f" = .ok ty := rfl
  simp [Expression.bind, bindInScope, bindCompare, inferScalar, bindScalar, referenceType, hty,
    orInferred, ScalarExpression.isConstant, requireExpected, requireSameOperands, hsame,
    requireOrderable, hv, equalsNone]

theorem bindOption_optionField (hu : intOption.underlying ty = .ok (.option .int)) :
    bindOption intOption (optionField ty) "field" (.reference "f") =
      .ok (.reference "f") := by
  have hty : intOption.fieldType (optionField ty) "f" = .ok ty := rfl
  simp [bindOption, bindScalar, referenceType, hty, hu, requireExpected]

theorem boundAtoms_presence (hu : intOption.underlying ty = .ok (.option .int)) :
    boundAtoms intOption (optionField ty) (.isNone (.reference "f")) =
        .ok [.isNone "f" [1]] ∧
      boundAtoms intOption (optionField ty) (.isSome (.reference "f")) =
        .ok [.isSome "f" [1]] := by
  simp [boundAtoms, validateShape, Expression.bind, bindInScope,
    bindOption_optionField hu, collectAtoms,
    fieldPathIds_optionField]

theorem boundAtoms_equalsNone {atom : IndexPredicateAtom} (hsame : sameType ty ty = true)
    (hv : intOption.coerce (.enum "None" [] 0) ty "expression literal" = .ok v)
    (hatom : equalityAtom intOption "f" [1] ty v = .ok atom) :
    boundAtoms intOption (optionField ty) (equalsNone "f") = .ok [atom] := by
  have hvalue : evaluateValue intOption (fun _ => none) (.literal v) = .ok v := rfl
  have hshape : validateShape (equalsNone "f") = .ok () := rfl
  simp [boundAtoms, hshape, bind_equalsNone hsame hv, collectAtoms, fieldPathIds_optionField,
    ScalarExpression.isLiteral, hvalue, hatom]

theorem boundAtoms_and {left right : BoolExpression} {ls rs : List IndexPredicateAtom}
    (hl : boundAtoms catalog schema left = .ok ls) (hr : boundAtoms catalog schema right = .ok rs) :
    boundAtoms catalog schema (.and left right) = .ok (ls ++ rs) := by
  obtain ⟨⟨⟩, hleft, left', hbl, hl⟩ := of_bind₂ hl
  obtain ⟨⟨⟩, hright, right', hbr, hr⟩ := of_bind₂ hr
  unfold Expression.bind at hbl hbr
  simp [boundAtoms, validateShape, hleft, hright, Expression.bind, bindInScope, hbl,
    hbr, collectAtoms,
    hl, hr]

/-- Few atoms are normalised. -/
theorem bind_of_boundAtoms [PredicateKeys] {raw : BoolExpression} {atoms : List IndexPredicateAtom}
    (h : boundAtoms catalog schema raw = .ok atoms)
    (hlength : atoms.length ≤ MAX_INDEX_PREDICATE_ATOMS) :
    IndexPredicate.bind catalog schema raw = normalizeAtoms atoms := by
  obtain ⟨⟨⟩, hshape, bound, hbind, h⟩ := of_bind₂ h
  simp [IndexPredicate.bind, hshape, hbind, h, Nat.not_lt.mpr hlength]

end

/-- **Normal forms are sound.** A condition is refused as contradictory only where no typed
row satisfies it, and the same conditions have the same identity. -/
theorem normalize_sound [Builtins] [PredicateKeys] [External] (hc : catalog.Sound)
    (hschema : SchemaBound schema)
    (hkeys : ∀ op op' arg arg',
      PredicateKeys.atomPayloadKey op arg = PredicateKeys.atomPayloadKey op' arg' → op = op') :
    (∀ raw e, UnnamedNones catalog schema raw → IndexPredicate.bind catalog schema raw = .error e →
      e.code = .E_INDEX_PREDICATE_CONTRADICTION →
      ∀ bound row, Expression.bind catalog schema raw = .ok bound → catalog.TypedFields schema row →
        ∀ b b', evaluate catalog row bound b ≠ .ok (true, b')) ∧
    (∀ raw raw' P P', UnnamedNones catalog schema raw → UnnamedNones catalog schema raw' →
      SameConditions raw raw' → IndexPredicate.bind catalog schema raw = .ok P →
      IndexPredicate.bind catalog schema raw' = .ok P' → P.identityKey = P'.identityKey) := by
  refine ⟨fun raw e hplain h hcode bound row hbind hrow => ?_,
    fun raw raw' P P' hplain hplain' hsame h h' => ?_⟩
  · exact bind_contradiction hc hschema hplain h hcode hbind hrow
  · obtain ⟨atoms, hatoms, hnormal⟩ := boundAtoms_of_bind h
    obtain ⟨atoms', hatoms', hnormal'⟩ := boundAtoms_of_bind h'
    have hidentity : P.atoms.map (·.identity) = P'.atoms.map (·.identity) := by
      refine normalizeAtoms_congr hc hschema hkeys (forall₂_conditionAtom hc hschema hatoms).2
        (forall₂_conditionAtom hc hschema hatoms').2 (fun i => ?_) hnormal hnormal'
      simp only [mem_map]
      refine exists_congr fun a => and_congr_left fun _ => ⟨fun ha => ?_, fun ha => ?_⟩
      · exact mem_of_sameConditions hc hschema hplain hplain' hsame hatoms hatoms' ha
      · exact mem_of_sameConditions hc hschema hplain' hplain (fun d =>
          (hsame d).symm) hatoms' hatoms ha
    exact congrArg (fun identities => "sha256:" ++ External.predicateDigest identities) hidentity

/-- Payloads that only show the operator. -/
@[reducible] def operatorKeys : PredicateKeys := ⟨fun op _ => replicate op 0⟩

/-- Functions without effect. -/
@[reducible] def noBuiltins : Builtins :=
  ⟨fun _ l _ => l, fun _ _ => pure (), fun _ => 1, fun _ _ _ => pure (.bool true)⟩

@[reducible] def operatorDigest : External :=
  ⟨fun _ => 0, fun _ => 0, fun identities => toString (identities.map fun i => i.2.1)⟩

section
attribute [local instance] operatorKeys noBuiltins operatorDigest

/-- An option field: `f == None && is_some f` is refused, and `f == None` and `is_none f` have
one identity. -/
theorem normalize_sound_option :
    ∃ e bound P P', IndexPredicate.bind intOption (optionField (.option .int))
        (.and (equalsNone "f") (.isSome (.reference "f"))) = .error e ∧
      e.code = .E_INDEX_PREDICATE_CONTRADICTION ∧
      Expression.bind intOption (optionField (.option .int))
        (.and (equalsNone "f") (.isSome (.reference "f"))) = .ok bound ∧
      evaluate intOption [("f", .option none)] bound 0 ≠ .ok (true, 0) ∧
      IndexPredicate.bind intOption (optionField (.option .int)) (equalsNone "f") = .ok P ∧
      IndexPredicate.bind intOption (optionField (.option .int))
        (.isNone (.reference "f")) = .ok P' ∧
      P.identityKey = P'.identityKey := by
  have hoption : (ScalarType.option .int).Bound := bound_option ⟨.int, .leaf trivial rfl⟩
  have hsame : sameType (.option .int) (.option .int) = true := by simp [sameType]
  have hu : intOption.underlying (.option .int) = .ok (.option .int) := rfl
  have hv : intOption.coerce (.enum "None" [] 0) (.option .int) "expression literal" =
      .ok (.option none) := rfl
  have hequal := boundAtoms_equalsNone hsame hv rfl
  obtain ⟨hnone, hsome⟩ := boundAtoms_presence hu
  have hboth := boundAtoms_and hequal hsome
  have hrefused : normalizeAtoms ([.isNone "f" [1]] ++ [.isSome "f" [1]]) =
      fail .E_INDEX_PREDICATE_CONTRADICTION
        "partial unique index predicate has conflicting conditions for field 'f'" := by
    have hle : IndexPredicateAtom.le (.isNone "f" [1]) (.isSome "f" [1]) = true := rfl
    rw [normalizeAtoms, mergeSort_of_pairwise (by simpa using hle)]
    rfl
  have hplain : ∀ {raw : BoolExpression},
      (∀ path right stated, .compare (.reference path) .eq right stated ∈ raw.conjuncts →
        path = "f") → UnnamedNones intOption (optionField (.option .int)) raw := by
    intro raw hfield path literal stated id value hmem hty
    cases hfield _ _ _ hmem
    cases hty
  have hschema : SchemaBound (optionField (.option .int)) :=
    ⟨by simp [optionField], by simpa [optionField] using hoption⟩
  have hrow : intOption.TypedFields (optionField (.option .int)) [("f", .option none)] :=
    ⟨by simp [KeysSorted], by simp [optionField],
      by simpa [optionField] using typed_option.mpr (.inl rfl)⟩
  have hbind : Expression.bind intOption (optionField (.option .int))
      (.and (equalsNone "f") (.isSome (.reference "f"))) =
      .ok (.and _ (.isSome (.reference "f"))) :=
    bind_eq_ok.mpr ⟨_, bind_equalsNone hsame hv,
      bind_eq_ok.mpr ⟨_, bind_eq_ok.mpr ⟨_, bindOption_optionField hu, rfl⟩, rfl⟩⟩
  have hP := (bind_of_boundAtoms hequal (by decide)).trans (normalizeAtoms_single _)
  have hP' := (bind_of_boundAtoms hnone (by decide)).trans (normalizeAtoms_single _)
  have herror := (bind_of_boundAtoms hboth (by decide)).trans hrefused
  obtain ⟨hcontradiction, hidentity⟩ := normalize_sound (single_sound hoption) hschema
    (fun op op' _ _ h => by simpa [PredicateKeys.atomPayloadKey] using congrArg List.length h)
  exact ⟨_, _, _, _, herror, rfl, hbind,
    hcontradiction _ _ (hplain (by simp +contextual [BoolExpression.conjuncts, equalsNone])) herror
      rfl _ _ hbind hrow 0 0,
    hP, hP', hidentity (equalsNone "f") (.isNone (.reference "f")) _ _
      (hplain (by simp +contextual [BoolExpression.conjuncts, equalsNone]))
      (hplain (by simp [BoolExpression.conjuncts])) (fun _ => Iff.rfl) hP hP'⟩

/-- **A satisfiable condition is refused.** The field has a named option type, for which
`f == None` stays an equality: together with `is_none f` it counts as a contradiction, though
the row without a value satisfies both. Alone, the two have different identities. -/
theorem named_none_contradiction :
    intOption.Sound ∧ SchemaBound (optionField (.ref 100)) ∧
    (∃ e bound, IndexPredicate.bind intOption (optionField (.ref 100))
          (.and (equalsNone "f") (.isNone (.reference "f"))) = .error e ∧
        e.code = .E_INDEX_PREDICATE_CONTRADICTION ∧
        Expression.bind intOption (optionField (.ref 100))
          (.and (equalsNone "f") (.isNone (.reference "f"))) = .ok bound ∧
        intOption.TypedFields (optionField (.ref 100)) [("f", .named 100 (.option none))] ∧
        evaluate intOption [("f", .named 100 (.option none))] bound 0 = .ok (true, 0)) ∧
    ∃ P P', IndexPredicate.bind intOption (optionField (.ref 100)) (equalsNone "f") = .ok P ∧
      IndexPredicate.bind intOption (optionField (.ref 100)) (.isNone (.reference "f")) =
        .ok P' ∧
      P.atoms.map (·.identity) ≠ P'.atoms.map (·.identity) := by
  have hsame : sameType (.ref 100) (.ref 100) = true := by simp [sameType]
  have hu : intOption.underlying (.ref 100) = .ok (.option .int) := rfl
  have hv : intOption.coerce (.enum "None" [] 0) (.ref 100) "expression literal" =
      .ok (.named 100 (.option none)) := rfl
  have hatom : equalityAtom intOption "f" [1] (.ref 100) (.named 100 (.option none)) =
      .ok (.equal "f" [1] (.ref 100) (.named 100 (.option none))) := rfl
  have hequal := boundAtoms_equalsNone hsame hv hatom
  obtain ⟨hnone, -⟩ := boundAtoms_presence hu
  have hsorted : normalizeAtoms [.equal "f" [1] (.ref 100) (.named 100 (.option none)),
      .isNone "f" [1]] =
      fail .E_INDEX_PREDICATE_CONTRADICTION
        "partial unique index predicate has conflicting conditions for field 'f'" := by
    have hle : IndexPredicateAtom.le (.equal "f" [1] (.ref 100) (.named 100 (.option none)))
        (.isNone "f" [1]) = true := rfl
    rw [normalizeAtoms, mergeSort_of_pairwise (by simpa using hle)]
    rfl
  have hbind := bind_equalsNone hsame hv
  have hbind' := bindOption_optionField hu
  unfold Expression.bind at hbind
  refine ⟨single_sound (bound_option ⟨.int, .leaf trivial rfl⟩), ⟨by simp [optionField], ?_⟩,
    ⟨_, .and (.compare (.reference "f") .eq (.literal (.named 100 (.option none)))
      (some (.ref 100)))
      (.isNone (.reference "f")), (bind_of_boundAtoms (boundAtoms_and hequal hnone)
        (by decide)).trans hsorted,
      rfl, ?_, ?_, rfl⟩, ?_⟩
  · simpa [optionField] using ⟨.ref 100, .leaf trivial rfl⟩
  · exact bind_eq_ok.mpr ⟨_, hbind, bind_eq_ok.mpr ⟨_, bind_eq_ok.mpr ⟨_, hbind', rfl⟩, rfl⟩⟩
  · refine ⟨by simp [KeysSorted], by simp [optionField], ?_⟩
    simpa [optionField] using
      typed_ref.mpr ⟨.option none, _, rfl, definition_single _, typed_option.mpr (.inl rfl)⟩
  · refine ⟨_, _, (bind_of_boundAtoms hequal (by decide)).trans (normalizeAtoms_single _),
      (bind_of_boundAtoms hnone (by decide)).trans (normalizeAtoms_single _), ?_⟩
    simp [IndexPredicateAtom.identity, IndexPredicateAtom.payload]

end

end UnionId
