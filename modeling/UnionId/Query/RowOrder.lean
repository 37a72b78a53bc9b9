import UnionId.Canonical
import UnionId.Model.RowTyping
import UnionId.Query.Pipeline

/-!
# The order of sort keys

Well-typed rows compare by bound sort keys without failing, in a total preorder whose
ties are the rows with equal sort tuples. The comparison looks at the fields of the keys
only.

## Main results

* `exists_rowOrder` — the order of the rows of a schema.
* `sortByTyped_stable` — what a stable sort by the keys returns.
-/
namespace UnionId

open Lib Std Catalog

/-- Every key has the type of its field. -/
def BoundKeys (catalog : Catalog) (schema : List Column) (keys : List SortKey) : Prop :=
  ∀ key ∈ keys, ∃ ty, key.ty = some ty ∧ catalog.fieldType schema key.column = .ok ty

/-- The fields that the keys look at. -/
def sortTuple (keys : List SortKey) (row : Fields) : List (Option Value) :=
  keys.map fun key => rowField row key.column

/-- A comparison that agrees with the keys on the rows of a schema. -/
structure IsRowOrder (catalog : Catalog) (schema : List Column) (keys : List SortKey)
    (order : Fields → Fields → Ordering) : Prop where
  trans : TransCmp order
  compare : ∀ l r, catalog.WellTypedFields schema l → catalog.WellTypedFields schema r →
    compareRowsByTypedKeys catalog keys l r = .ok (order l r)
  eq_iff : ∀ l r, catalog.WellTypedFields schema l → catalog.WellTypedFields schema r →
    (order l r = .eq ↔ sortTuple keys l = sortTuple keys r)

variable {keys : List SortKey}

theorem compareRowsByTypedKeys_congr {catalog : Catalog} {l l' r r' : Fields}
    (hl : sortTuple keys l = sortTuple keys l') (hr : sortTuple keys r = sortTuple keys r') :
    compareRowsByTypedKeys catalog keys l r = compareRowsByTypedKeys catalog keys l' r' := by
  induction keys with
  | nil => rfl
  | cons key keys ih =>
    obtain ⟨hkey, hl⟩ := List.cons_eq_cons.mp hl
    obtain ⟨hkey', hr⟩ := List.cons_eq_cons.mp hr
    have hleft : sortField l key.column = sortField l' key.column := by
      simp only [sortField, hkey]
    have hright : sortField r key.column = sortField r' key.column := by
      simp only [sortField, hkey']
    rw [compareRowsByTypedKeys, compareRowsByTypedKeys, hleft, hright, ih hl hr]

variable {catalog : Catalog} {schema : List Column}

theorem exists_keyOrder (hc : catalog.Sound) (hschema : ∀ c ∈ schema, c.ty.Bound) {key : SortKey}
    {ty : ScalarType} (hty : catalog.fieldType schema key.column = .ok ty) :
    ∃ order : Fields → Fields → Ordering, TransCmp order ∧
      ∀ l r, catalog.WellTypedFields schema l → catalog.WellTypedFields schema r →
        ∃ v w ordering, sortField l key.column = .ok v ∧ sortField r key.column = .ok w ∧
          catalog.cmpTyped ty v w = .ok ordering ∧
          order l r = (if key.descending then ordering.swap else ordering) ∧
          (order l r = .eq ↔ rowField l key.column = rowField r key.column) := by
  have hwf := (fieldType_bound hc hschema hty).wellFormed
  obtain ⟨code, hcode⟩ := exists_code hc.wellFormed hwf
  let keyCode : Fields → List UInt8 := fun row => code ((rowField row key.column).getD .null)
  refine ⟨if key.descending then fun l r => compareOn keyCode r l else compareOn keyCode, ?_, ?_⟩
  · split
    · infer_instance
    · infer_instance
  · intro l r hl hr
    obtain ⟨v, hv, hvt⟩ := hl.rowField hty
    obtain ⟨w, hw, hwt⟩ := hr.rowField hty
    have hcmp := hcode v w hvt hwt
    have heq := HasType.cmpTypedInner_eq_iff hc.wellFormed hwf hvt hwt
    have hswap : compare (code w) (code v) = (compare (code v) (code w)).swap :=
      OrientedCmp.eq_swap
    have horder : (if key.descending then fun l r =>
        compareOn keyCode r l else compareOn keyCode) l r =
        if key.descending then (compare (code v) (code w)).swap else compare (code v) (code w) := by
      split <;> simp [compareOn, keyCode, hv, hw, hswap]
    refine ⟨v, w, compare (code v) (code w), by simp [sortField, hv],
      by simp [sortField, hw], hcmp, horder, ?_⟩
    rw [horder, hv, hw, Option.some.injEq, ← heq]
    have hinner : catalog.cmpTypedInner MAX_DEPTH ty v w = .ok (compare (code v) (code w)) := hcmp
    rw [hinner, Except.ok.injEq]
    split <;> simp

/-- **Well-typed rows have an order by bound keys.** -/
theorem exists_rowOrder (hc : catalog.Sound) (hschema : ∀ c ∈ schema, c.ty.Bound)
    (hkeys : BoundKeys catalog schema keys) :
    ∃ order, IsRowOrder catalog schema keys order := by
  induction keys with
  | nil =>
    refine ⟨fun _ _ => .eq, ?_, fun _ _ _ _ => rfl, fun _ _ _ _ => by simp [sortTuple]⟩
    exact { eq_swap := rfl, isLE_trans := fun _ _ => rfl }
  | cons key keys ih =>
    obtain ⟨⟨ty, hbound, hty⟩, hkeys⟩ := List.forall_mem_cons.mp hkeys
    obtain ⟨order, hrest⟩ := ih hkeys
    obtain ⟨first, htrans, hfirst⟩ := exists_keyOrder hc hschema hty
    have := hrest.trans
    refine ⟨compareLex first order, inferInstance, fun l r hl hr => ?_, fun l r hl hr => ?_⟩
    · obtain ⟨v, w, ordering, hv, hw, hcmp, horder, -⟩ := hfirst l r hl hr
      rw [compareRowsByTypedKeys, hbound]
      dsimp only
      rw [hv, ok_bind, hw, ok_bind, hcmp, ok_bind, ← horder, hrest.compare l r hl hr, compareLex]
      cases first l r <;> rfl
    · obtain ⟨v, w, ordering, -, -, -, -, heq⟩ := hfirst l r hl hr
      rw [compareLex_eq_eq, heq, hrest.eq_iff l r hl hr]
      simp [sortTuple]

/-- **A sort by bound keys** puts smaller rows first and leaves ties as they stand. -/
theorem sortByTyped_stable {order : Fields → Fields → Ordering}
    (horder : IsRowOrder catalog schema keys order) {α : Type} (fields : α → Fields) {l : List α}
    (hl : ∀ a ∈ l, catalog.WellTypedFields schema (fields a)) {R : α → α → Prop}
    (hR : l.Pairwise R) : ∃ r, sortByTyped catalog keys fields l = .ok r ∧ r.Perm l ∧
      r.Pairwise (Ahead (fun a b => order (fields a) (fields b)) R) := by
  have htrans := horder.trans
  have hpull : TransCmp fun a b => order (fields a) (fields b) :=
    { eq_swap := fun {_ _} => htrans.eq_swap, isLE_trans := fun {_ _ _} => htrans.isLE_trans }
  obtain ⟨r, hr, hsorted⟩ := sortM_stable
    (fun a ha b hb => horder.compare _ _ (hl a ha) (hl b hb)) hR
  exact ⟨r, hr, sortM_perm hr, hsorted⟩

end UnionId
