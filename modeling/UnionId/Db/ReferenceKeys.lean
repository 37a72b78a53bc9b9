import UnionId.Db.IndexInvariant
import UnionId.OrderedKey.Order

/-!
# Reference keys and target index keys

A reference compares ascending keys, while its target index may have descending
components. Both are codes of the same values, so two rows have equal reference
keys exactly when they have equal keys in the target index.
-/
namespace UnionId

open Lib Std List ReferenceDefinition

/-- A reference resolved against the schema: its target index covers every row
and has the target columns of the reference, in order, at the declared types. -/
structure ReferenceBound (db : Database) (definition : ReferenceDefinition) (target : Table)
    (index : IndexDefinition) : Prop where
  resolves : db.referenceTargetIndex definition = .ok (target, index)
  total : index.predicate = none
  columns : index.effectiveComponents.map (fun c => c.column) =
    definition.components.map fun c => c.targetColumn
  types : ∀ c ∈ definition.components,
    db.catalog.fieldType target.schema c.targetColumn = .ok c.targetType
  constrains : Database.constrains index target.primaryKey

namespace ReferenceDefinition

/-- The key of a row as a source. -/
def sourceKey (definition : ReferenceDefinition) (catalog : Catalog) (row : Row) :
    Result (Option (List UInt8)) :=
  definition.key catalog row.fields true

/-- The key of a row as a target. -/
def targetKey (definition : ReferenceDefinition) (catalog : Catalog) (row : Row) :
    Result (Option (List UInt8)) :=
  definition.key catalog row.fields false

def targetTypes (definition : ReferenceDefinition) : List ScalarType :=
  definition.components.map fun c => c.targetType

theorem boundComponents_eq (definition : ReferenceDefinition) (descending : List Bool)
    (values : List Value) : definition.boundComponents descending values =
      OrderedKey.components (definition.targetTypes.zip descending) values := by
  unfold boundComponents targetTypes OrderedKey.components
  generalize definition.components = components
  induction components generalizing descending values with
  | nil => rfl
  | cons c components ih =>
    cases descending with
    | nil => rfl
    | cons d descending =>
      cases values with
      | nil => rfl
      | cons v values => exact congrArg _ (ih descending values)

theorem length_componentValues {fields : Fields} {source : Bool}
    {components : List ReferenceComponent} {values : List Value}
    (h : componentValues fields source components = .ok (some values)) :
    values.length = components.length := by
  induction components generalizing values with
  | nil =>
    cases h
    rfl
  | cons c components ih =>
    obtain ⟨v, -, h⟩ := of_bind h
    cases v with
    | none => cases h
    | some v =>
      obtain ⟨rest, hrest, h⟩ := of_bind h
      cases rest with
      | none => cases h
      | some rest =>
        cases h
        simp [ih hrest]

end ReferenceDefinition

theorem boundComponents_eq (components : List IndexComponentDefinition) (types : List ScalarType)
    (values : List Value) : boundComponents components types values =
      OrderedKey.components (types.zip (components.map fun c => c.descending)) values := by
  unfold boundComponents OrderedKey.components
  induction components generalizing types values with
  | nil => simp
  | cons c components ih =>
    cases types with
    | nil => rfl
    | cons ty types =>
      cases values with
      | nil => rfl
      | cons v values => exact congrArg _ (ih types values)

variable {components : List IndexComponentDefinition} {references : List ReferenceComponent}

/-- The values of an index are those of the reference components over its columns. -/
theorem componentValues_of_indexValues {fields : Fields} {name : String}
    (hcols : components.map (fun c => c.column) = references.map fun c => c.targetColumn)
    {values : List Value} (h : indexValues fields components name = .ok values) :
    ReferenceDefinition.componentValues fields false references = .ok (some values) := by
  unfold indexValues at h
  rw [mapM_eq_ok_iff] at h
  induction h generalizing references with
  | nil =>
    obtain rfl : references = [] := by simpa using hcols.symm
    rfl
  | @cons c v _ _ hv _ ih =>
    obtain ⟨r, references, rfl, hr, hcols⟩ := map_eq_cons_iff.mp hcols.symm
    refine bind_eq_ok.mpr ⟨some _, ?_, bind_eq_ok.mpr ⟨_, ih hcols.symm, rfl⟩⟩
    unfold indexComponentValue at hv
    cases hfield : rowField fields c.column with
    | none =>
      rw [hfield] at hv
      cases hv
    | some w =>
      rw [hfield] at hv
      obtain ⟨-, -, rfl⟩ := of_bind_pure hv
      simp [componentValue, hr, hfield]

theorem mapM_fieldType_eq {catalog : Catalog} {schema : List Column}
    (hcols : components.map (fun c => c.column) = references.map fun c => c.targetColumn)
    (htypes : ∀ c ∈ references, catalog.fieldType schema c.targetColumn = .ok c.targetType) :
    components.mapM (fun c => catalog.fieldType schema c.column) =
      .ok (references.map fun c => c.targetType) := by
  rw [mapM_eq_ok_iff]
  induction components generalizing references with
  | nil =>
    obtain rfl : references = [] := by simpa using hcols.symm
    exact .nil
  | cons c components ih =>
    obtain ⟨r, references, rfl, hr, hcols⟩ := map_eq_cons_iff.mp hcols.symm
    obtain ⟨hty, htypes⟩ := forall_mem_cons.mp htypes
    have hcolumn : r.targetColumn = c.column := hr
    exact .cons (hcolumn ▸ hty) (ih hcols.symm htypes)

section Keys
variable {db : Database} {definition : ReferenceDefinition} {target : Table}
  {index : IndexDefinition} {row : Row} {b : List UInt8}

def IndexDefinition.directions (index : IndexDefinition) : List Bool :=
  index.effectiveComponents.map fun c => c.descending

variable {k k' : List UInt8} {name : String}

theorem limitedKey_eq_ok : limitedKey k = .ok k' ↔
      COMPLETE_KEY_OVERHEAD + k.length ≤ OrderedKey.MAX_COMPLETE_INDEX_KEY_BYTES ∧ k = k' := by
  unfold limitedKey
  split
  · rename_i h
    simp [Nat.not_le.mpr h]
  · rename_i h
    simp [Nat.not_lt.mp h]

theorem limitedReferenceKey_eq_ok : ReferenceDefinition.limitedReferenceKey k = .ok k' ↔
      COMPLETE_KEY_OVERHEAD + k.length ≤ OrderedKey.MAX_COMPLETE_INDEX_KEY_BYTES ∧ k = k' := by
  unfold limitedReferenceKey
  rw [Nat.add_comm]
  split
  · rename_i h
    simp [Nat.not_le.mpr h]
  · rename_i h
    simp [Nat.not_lt.mp h]

theorem ReferenceBound.rowKey_eq_ok (hb : ReferenceBound db definition target index)
    (h : rowKey db.catalog target.schema name index row = .ok (some b)) :
    ∃ values, definition.values row.fields false = .ok (some values) ∧
      OrderedKey.encodeTuple db.catalog
        (OrderedKey.components (definition.targetTypes.zip index.directions) values) = .ok b ∧
      COMPLETE_KEY_OVERHEAD + b.length ≤ OrderedKey.MAX_COMPLETE_INDEX_KEY_BYTES := by
  have hinc : index.includes row.fields = true := by simp [IndexDefinition.includes, hb.total]
  simp only [rowKey, includedKey, hinc, if_true] at h
  obtain ⟨key, hkey, h⟩ := of_bind h
  cases h
  obtain ⟨values, hvalues, hkey⟩ := of_bind hkey
  obtain ⟨types, htypes, code, hcode, hkey⟩ := of_bind₂ hkey
  obtain ⟨hlen, rfl⟩ := limitedKey_eq_ok.mp hkey
  refine ⟨values, componentValues_of_indexValues hb.columns hvalues, ?_, hlen⟩
  have htys : types = definition.targetTypes :=
    Except.ok.inj (htypes.symm.trans (mapM_fieldType_eq hb.columns hb.types))
  rw [← htys, IndexDefinition.directions, ← boundComponents_eq]
  exact hcode

variable {catalog : Catalog} {fields : Fields} {source : Bool}

/-- A reference key is the ascending code of the values, within the length limit. -/
theorem ReferenceDefinition.key_eq_ok_some : definition.key catalog fields source = .ok (some k) ↔
      ∃ values, definition.values fields source = .ok (some values) ∧
        OrderedKey.encodeTuple catalog
          (OrderedKey.components (definition.targetTypes.zip definition.ascending) values) = .ok k ∧
        COMPLETE_KEY_OVERHEAD + k.length ≤ OrderedKey.MAX_COMPLETE_INDEX_KEY_BYTES := by
  unfold key
  rw [bind_eq_ok]
  constructor
  · rintro ⟨values, hvalues, h⟩
    cases values with
    | none => cases h
    | some values =>
      obtain ⟨code, hcode, code', hlim, h⟩ := of_bind₂ h
      cases h
      obtain ⟨hlen, rfl⟩ := limitedReferenceKey_eq_ok.mp hlim
      rw [boundComponents_eq] at hcode
      exact ⟨values, hvalues, hcode, hlen⟩
  · rintro ⟨values, hvalues, hcode, hlen⟩
    refine ⟨some values, hvalues, ?_⟩
    rw [← boundComponents_eq] at hcode
    exact bind_eq_ok.mpr ⟨k, hcode, bind_eq_ok.mpr
      ⟨k, limitedReferenceKey_eq_ok.mpr ⟨hlen, rfl⟩, rfl⟩⟩

theorem ReferenceDefinition.key_eq_ok_none (h : definition.key catalog fields source = .ok none) :
    definition.values fields source = .ok none := by
  unfold key at h
  obtain ⟨values, hvalues, h⟩ := of_bind h
  cases values with
  | none => exact hvalues
  | some values =>
    obtain ⟨code, -, code', -, h⟩ := of_bind₂ h
    cases h

theorem ReferenceDefinition.map_fst_zip_ascending :
    (definition.targetTypes.zip definition.ascending).map Prod.fst = definition.targetTypes :=
  map_fst_zip (by simp [targetTypes, ascending])

variable (hb : ReferenceBound db definition target index)
include hb

theorem ReferenceBound.map_fst_zip_directions :
    (definition.targetTypes.zip index.directions).map Prod.fst = definition.targetTypes := by
  refine map_fst_zip ?_
  have hlen := congrArg List.length hb.columns
  simp only [length_map] at hlen
  simp [targetTypes, IndexDefinition.directions, hlen]

theorem ReferenceBound.boundary_of_sourceKey
    (h : definition.sourceKey db.catalog row = .ok (some k)) :
    ∃ values boundary, definition.values row.fields true = .ok (some values) ∧
      OrderedKey.encodeTuple db.catalog
        (OrderedKey.components (definition.targetTypes.zip index.directions) values) =
          .ok boundary ∧
      db.referenceTargetBoundary definition row.fields = .ok (some boundary) := by
  obtain ⟨values, hvalues, hcode, -⟩ := key_eq_ok_some.mp h
  obtain ⟨boundary, hboundary, -⟩ := OrderedKey.encodeTuple_redirect
    (definition.map_fst_zip_ascending.trans hb.map_fst_zip_directions.symm) hcode
  refine ⟨values, boundary, hvalues, hboundary, ?_⟩
  simp only [Database.referenceTargetBoundary, hvalues, ok_bind, hb.resolves]
  refine bind_eq_ok.mpr ⟨boundary, ?_, rfl⟩
  rw [ReferenceDefinition.boundComponents_eq]
  exact hboundary

theorem ReferenceBound.targetKey_of_rowKey
    (h : rowKey db.catalog target.schema name index row = .ok (some b)) :
    ∃ k, definition.targetKey db.catalog row = .ok (some k) := by
  obtain ⟨values, hvalues, hcode, hlen⟩ := hb.rowKey_eq_ok h
  obtain ⟨k, hk, hklen⟩ := OrderedKey.encodeTuple_redirect
    (hb.map_fst_zip_directions.trans definition.map_fst_zip_ascending.symm) hcode
  exact ⟨k, key_eq_ok_some.mpr ⟨values, hvalues, hk, by omega⟩⟩

/-- **One equality.** The code of a tuple under the reference and under the target
index decide alike whether it is that of a target row. -/
theorem ReferenceBound.key_eq_iff {t : Row} {values : List Value} {boundary : List UInt8}
    (hlen : values.length = definition.components.length)
    (hk : OrderedKey.encodeTuple db.catalog (OrderedKey.components
      (definition.targetTypes.zip definition.ascending) values) = .ok k)
    (hboundary : OrderedKey.encodeTuple db.catalog (OrderedKey.components
      (definition.targetTypes.zip index.directions) values) = .ok boundary)
    (ht : rowKey db.catalog target.schema name index t = .ok (some b))
    (htk : definition.targetKey db.catalog t = .ok (some k')) : k = k' ↔ boundary = b := by
  obtain ⟨tvalues, htv, htcode, -⟩ := hb.rowKey_eq_ok ht
  obtain ⟨tvalues', htv', htkcode, -⟩ := key_eq_ok_some.mp htk
  obtain rfl : tvalues = tvalues' := by simpa [htv] using htv'
  have hzip : (definition.targetTypes.zip definition.ascending).length =
      definition.components.length := by
    simp [targetTypes, ascending]
  exact OrderedKey.encodeTuple_eq_iff_redirect
    (definition.map_fst_zip_ascending.trans hb.map_fst_zip_directions.symm)
    (hlen.trans hzip.symm)
    ((length_componentValues htv).trans hzip.symm) hk htkcode hboundary htcode

end Keys
end UnionId
