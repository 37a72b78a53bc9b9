import UnionId.Db.ReferenceKeys
import UnionId.Db.Tables
import UnionId.Lib.KeyRange
import UnionId.Storage.Records

/-!
# Postings of stored rows

The index table of a storage generation holds one key for each row that an index covers
and for each row with a reference that is present. Both are postings: a definition projects
a row to a value, and the value is encoded together with the identities of the definition
and of the row.

## Main results

* `PostingsConsistent.expectedKey_eq_ok_some` — the key under a definition, by its components.
* `OrderedKey.encodeCompleteVersion_eq_ok_iff` — the parts of a complete key.
-/
namespace UnionId

open Lib Std List Database

/-! ## Projections -/

/-- The index key codecs that current files use. -/
inductive IndexKeyVersion where
  | production
  | map
  deriving DecidableEq

def IndexKeyVersion.number : IndexKeyVersion → ℕ
  | production => OrderedKey.INDEX_KEY_CODEC_VERSION
  | map => OrderedKey.MAP_INDEX_KEY_CODEC_VERSION

def IndexDefinition.displayShape (definition : IndexDefinition) : String :=
  joinComponents ", " definition.effectiveComponents

inductive PostingDefinition where
  | index (definition : IndexDefinition)
  | reference (definition : ReferenceDefinition)

namespace PostingDefinition

def id : PostingDefinition → UInt64
  | index d => d.id
  | reference d => d.id

def tableId : PostingDefinition → UInt64
  | index d => d.tableId
  | reference d => d.tableId

def componentCount : PostingDefinition → ℕ
  | index d => max d.components.length 1
  | reference d => d.components.length

end PostingDefinition

namespace Database

def sourceIndexValueIfIncluded (_db : Database) (table : String) (definition : IndexDefinition)
    (row : Row) : Result (Option Value) :=
  if definition.includes row.fields then
    some <$> indexValue row.fields definition.effectiveComponents table
  else pure none

def projectedValues (arity : ℕ) (notTuple wrongArity : Message) (value : Value) :
    Result (List Value) :=
  if arity = 1 then pure [value]
  else match value with
    | .tuple values => if values.length ≠ arity then storageFails wrongArity else pure values
    | _ => storageFails notTuple

/-- The index with an identity, and its table. -/
def indexById (db : Database) (id : UInt64) : Option (String × IndexDefinition) :=
  db.indexDefinitions.toList.findSome? fun (table, definitions) =>
    ((valuesOf definitions).find? fun definition => definition.id = id).map (table, ·)

/-- References and indexes share the identities of the catalog. -/
def encodeSecondaryIndexKeyVersion (db : Database) (indexId : UInt64) (value : Value)
    (rowId : UInt64) (version : IndexKeyVersion) : Result (List UInt8) :=
  match db.referenceDefinitions[indexId]? with
  | some reference =>
    match version with
    | .production =>
      fail .E_STORAGE_UPGRADE_REQUIRED "reference postings require index key codec 4"
    | .map => do
      let values ← projectedValues reference.components.length
        "composite reference value is not a tuple"
        "composite reference tuple has the wrong arity" value
      OrderedKey.encodeCompleteV4 db.catalog indexId
        (reference.boundComponents reference.ascending values) rowId
  | none =>
    match db.indexById indexId with
    | none => storageFails
        ("secondary index ID " ++ toString indexId ++ " is not in the catalog" : String)
    | some (name, definition) => do
      let table ← db.table name
      let components := definition.effectiveComponents
      let values ← projectedValues components.length
        "composite secondary index value is not a tuple"
        "composite secondary index tuple has the wrong arity" value
      let types ← components.mapM fun component =>
        db.catalog.fieldType table.schema component.column
      OrderedKey.encodeCompleteVersion db.catalog indexId (boundComponents components types values)
        rowId version.number

end Database

namespace PostingDefinition

def project (db : Database) (table : DurableTable) (row : Row) :
    PostingDefinition → Result (Option Value)
  | index d => db.sourceIndexValueIfIncluded table.name d row
  | reference d => d.sourceValue row.fields

def isUnique (table : DurableTable) : PostingDefinition → Bool
  | index d => d.isUnique || d.isPrimaryIndex table.primaryKey
  | reference _ => false

def description (table : DurableTable) : PostingDefinition → Message
  | index d => ("index '" ++ table.name ++ " (" ++ d.displayShape ++ ")'" : String)
  | reference d => ("reference " ++ toString d.id ++ " on table '" ++ table.name ++ "'" : String)

end PostingDefinition

/-- The key of a row under a definition, if it has one. -/
def Database.expectedKey (db : Database) (version : IndexKeyVersion) (table : DurableTable)
    (row : Row) (definition : PostingDefinition) : Result (Option (List UInt8)) := do
  match ← definition.project db table row with
  | none => pure none
  | some indexed =>
    some <$> db.encodeSecondaryIndexKeyVersion definition.id indexed (UInt64.ofNat row.id) version

/-! ## The catalog -/

def DurableCatalogEntry.posting? : DurableCatalogEntry → Option PostingDefinition
  | .index _ d => some (.index d)
  | .reference d => some (.reference d)
  | _ => none

/-- The indexes and references of a database, in the order of its catalog. -/
def Database.postings (db : Database) : List PostingDefinition :=
  db.durableCatalogEntries.filterMap DurableCatalogEntry.posting?

variable {db : Database}

theorem Database.index_mem_entries {name : String} {d : IndexDefinition} :
    .index name d ∈ db.durableCatalogEntries ↔ d ∈ valuesOf (db.definitions name) := by
  simp only [durableCatalogEntries, mem_mergeSort, mem_append, mem_map,
    mem_flatMap, Prod.exists, ExtTreeMap.mem_toList_iff_getElem?_eq_some, reduceCtorEq,
    and_false, exists_false, false_or, or_false, DurableCatalogEntry.index.injEq, definitions]
  cases hds : db.indexDefinitions[name]? with
  | none => simp [hds]
  | some ds => simp [hds]

theorem Database.index_mem_postings {d : IndexDefinition} :
    .index d ∈ db.postings ↔ ∃ name, d ∈ valuesOf (db.definitions name) := by
  simp only [← index_mem_entries, postings, mem_filterMap]
  constructor
  · rintro ⟨entry, hentry, hd⟩
    cases entry <;> cases hd
    exact ⟨_, hentry⟩
  · rintro ⟨name, hd⟩
    exact ⟨_, hd, rfl⟩

theorem Database.reference_mem_postings {d : ReferenceDefinition} :
    .reference d ∈ db.postings ↔ d ∈ valuesOf db.referenceDefinitions := by
  simp only [postings, durableCatalogEntries, mem_filterMap, mem_mergeSort,
    mem_append, mem_map, mem_flatMap]
  constructor
  · rintro ⟨entry, (((⟨_, -, rfl⟩ | ⟨_, -, rfl⟩) | ⟨_, -, _, -, rfl⟩) | ⟨d', hd', rfl⟩) |
      ⟨_, -, rfl⟩, hentry⟩ <;> cases hentry
    exact hd'
  · exact fun hd => ⟨.reference d, .inl (.inr ⟨d, hd, rfl⟩), rfl⟩

/-- A catalog as loading leaves it: tables, indexes and references agree with each other,
and their identities are distinct. -/
structure PostingsConsistent (db : Database) : Prop where
  tables : TablesWF db
  wellFormed : db.catalog.WellFormed
  uniqueIds : db.catalog.Everywhere ScalarType.UniqueIds
  rowTypes : ∀ table ∈ valuesOf db.objects, table.rowScalarType.Bound
  indexed : ∀ name, ∀ d ∈ valuesOf (db.definitions name), ∃ table,
    db.objects[name]? = some table ∧ d.tableId = table.id
  distinct : (db.postings.map PostingDefinition.id).Nodup
  listed : ∀ (id : UInt64) (d : ReferenceDefinition), db.referenceDefinitions[id]? = some d →
    d.id = id
  sourced : ∀ d ∈ valuesOf db.referenceDefinitions, ∃ table ∈ valuesOf db.objects,
    table.id = d.tableId
  bound : ∀ d ∈ valuesOf db.referenceDefinitions, ∃ target index, ReferenceBound db d target index

namespace PostingsConsistent

variable {db : Database} (h : PostingsConsistent db) {version : IndexKeyVersion} {table : Table}
  {row : Row}

include h

theorem eq_of_id_eq {d d' : PostingDefinition} (hd : d ∈ db.postings) (hd' : d' ∈ db.postings)
    (hid : d.id = d'.id) : d = d' :=
  inj_on_of_nodup_map h.distinct hd hd' hid

theorem exists_table {d : PostingDefinition} (hd : d ∈ db.postings) :
    ∃ table : Table, db.objects[table.name]? = some table ∧ table.id = d.tableId := by
  have hnamed : ∀ {name : String} {table : Table}, db.objects[name]? = some table →
      db.objects[table.name]? = some table := by
    intro name table htable
    rwa [h.tables.named name table htable]
  cases d with
  | index d =>
    obtain ⟨name, hd⟩ := index_mem_postings.mp hd
    obtain ⟨table, htable, hid⟩ := h.indexed name d hd
    exact ⟨table, hnamed htable, hid.symm⟩
  | reference d =>
    obtain ⟨table, htable, hid⟩ := h.sourced d (reference_mem_postings.mp hd)
    obtain ⟨name, htable⟩ := mem_valuesOf.mp htable
    exact ⟨table, hnamed htable, hid⟩

/-- Tables are known by their identities. -/
theorem table_eq_of_id_eq {table table' : Table} (ht : db.objects[table.name]? = some table)
    (ht' : db.objects[table'.name]? = some table') (hid : table.id = table'.id) :
    table = table' := by
  have hname := h.tables.distinct _ _ _ _ ht ht' hid
  rw [hname, ht'] at ht
  exact (Option.some.inj ht).symm

variable {d : IndexDefinition}

theorem mem_definitions (ht : db.objects[table.name]? = some table)
    (hd : .index d ∈ db.postings) (hid : d.tableId = table.id) :
    d ∈ valuesOf (db.definitions table.name) := by
  obtain ⟨name, hd⟩ := index_mem_postings.mp hd
  obtain ⟨table', ht', hid'⟩ := h.indexed name d hd
  have hname := h.tables.distinct _ _ _ _ ht' ht (hid'.symm.trans hid)
  exact hname ▸ hd

theorem indexById_eq (ht : db.objects[table.name]? = some table)
    (hd : .index d ∈ db.postings) (hid : d.tableId = table.id) :
    db.indexById d.id = some (table.name, d) := by
  have hmem := h.mem_definitions ht hd hid
  cases hfind : db.indexById d.id with
  | none =>
    simp only [indexById, findSome?_eq_none_iff, Option.map_eq_none_iff,
      find?_eq_none, Prod.forall, ExtTreeMap.mem_toList_iff_getElem?_eq_some] at hfind
    cases hds : db.indexDefinitions[table.name]? with
    | none => simp [definitions, hds] at hmem
    | some ds =>
      rw [definitions, hds, Option.getD_some] at hmem
      exact absurd (decide_eq_true rfl) (hfind _ ds hds d hmem)
  | some found =>
    obtain ⟨⟨name, ds⟩, hds, hfound⟩ := exists_of_findSome?_eq_some hfind
    obtain ⟨d', hd', rfl⟩ := Option.map_eq_some_iff.mp hfound
    rw [ExtTreeMap.mem_toList_iff_getElem?_eq_some] at hds
    have hmem' : d' ∈ valuesOf (db.definitions name) := by
      rw [definitions, hds]
      exact mem_of_find?_eq_some hd'
    have hid' : d'.id = d.id := by simpa using find?_some hd'
    have hsame := h.eq_of_id_eq (index_mem_postings.mpr ⟨name, hmem'⟩) hd hid'
    obtain rfl : d' = d := by injection hsame
    obtain ⟨table', ht', htid⟩ := h.indexed name d' hmem'
    rw [h.tables.distinct _ _ _ _ ht' ht (htid.symm.trans hid)]

theorem referenceDefinitions_index (hd : .index d ∈ db.postings) :
    db.referenceDefinitions[d.id]? = none := by
  cases hr : db.referenceDefinitions[d.id]? with
  | none => rfl
  | some r =>
    have hmem : .reference r ∈ db.postings :=
      reference_mem_postings.mpr (mem_valuesOf.mpr ⟨_, hr⟩)
    have hsame := h.eq_of_id_eq hd hmem (h.listed _ r hr).symm
    cases hsame

theorem referenceDefinitions_reference {d : ReferenceDefinition} (hd : .reference d ∈ db.postings) :
    db.referenceDefinitions[d.id]? = some d := by
  obtain ⟨id, hid⟩ := mem_valuesOf.mp (reference_mem_postings.mp hd)
  rw [h.listed id d hid]
  exact hid

end PostingsConsistent

/-! ## Keys by components -/

namespace PostingDefinition

/-- The types and directions of the components. -/
def shape (catalog : Catalog) (schema : List Column) :
    PostingDefinition → Result (List (ScalarType × Bool))
  | index d => do
    let types ← d.effectiveComponents.mapM fun c => catalog.fieldType schema c.column
    pure (types.zip d.directions)
  | reference d => pure (d.targetTypes.zip d.ascending)

/-- The values of the components, if the row has a posting. -/
def values (table : String) (fields : Fields) : PostingDefinition → Result (Option (List Value))
  | index d =>
    if d.includes fields then some <$> indexValues fields d.effectiveComponents table
    else pure none
  | reference d => d.values fields true

/-- References need the newer codec. -/
def Supports (version : IndexKeyVersion) : PostingDefinition → Prop
  | index _ => True
  | reference _ => version = .map

theorem length_effectiveComponents (d : IndexDefinition) :
    d.effectiveComponents.length = (index d).componentCount := by
  simp only [IndexDefinition.effectiveComponents, componentCount]
  cases d.components <;> simp

theorem length_shape {catalog : Catalog} {schema : List Column} {d : PostingDefinition}
    {shape : List (ScalarType × Bool)} (h : d.shape catalog schema = .ok shape) :
    shape.length = d.componentCount := by
  cases d with
  | index d =>
    obtain ⟨types, htypes, rfl⟩ := of_bind_pure h
    have hlen := (mapM_eq_ok_iff.mp htypes).length_eq
    rw [length_zip, ← hlen, IndexDefinition.directions, length_map, Nat.min_self,
      length_effectiveComponents]
  | reference d =>
    cases h
    simp [ReferenceDefinition.targetTypes, ReferenceDefinition.ascending, componentCount]

theorem length_values {table : String} {fields : Fields} {d : PostingDefinition}
    {values : List Value} (h : d.values table fields = .ok (some values)) :
    values.length = d.componentCount := by
  cases d with
  | index d =>
    simp only [PostingDefinition.values] at h
    split at h
    · obtain ⟨values', hvalues, h⟩ := map_eq_ok.mp h
      cases h
      rw [← length_effectiveComponents]
      exact (mapM_eq_ok_iff.mp hvalues).length_eq.symm
    · cases h
  | reference d => exact ReferenceDefinition.length_componentValues h

end PostingDefinition

theorem Database.projectedValues_tupleOf {arity : ℕ} {m m' : Message} {values : List Value}
    (h : values.length = arity) : projectedValues arity m m' (tupleOf values) = .ok values := by
  subst h
  match values with
  | [] => rfl
  | [value] => rfl
  | _ :: _ :: _ => simp [projectedValues, tupleOf]

theorem PostingDefinition.project_eq {table : Table} {row : Row} (d : PostingDefinition) :
    d.project db table.durable row =
      (do let values ← d.values table.name row.fields
          pure (values.map tupleOf)) := by
  cases d with
  | index d =>
    simp only [project, sourceIndexValueIfIncluded, PostingDefinition.values, indexValue]
    change (if _ then _ <$> (indexValues row.fields d.effectiveComponents table.name >>= _) else _)
      = _
    split
    · cases indexValues row.fields d.effectiveComponents table.name <;> rfl
    · rfl
  | reference d => rfl

namespace PostingsConsistent

variable {db : Database} {version : IndexKeyVersion} {table : Table} {row : Row}
  {d : PostingDefinition}

/-- A value of the components is encoded by their types and directions. -/
theorem encodeSecondaryIndexKey_eq (h : PostingsConsistent db)
    (ht : db.objects[table.name]? = some table) (hd : d ∈ db.postings)
    (hid : d.tableId = table.id) {values : List Value} (hlen : values.length = d.componentCount)
    (version : IndexKeyVersion) (rowId : UInt64) (key : List UInt8) :
    db.encodeSecondaryIndexKeyVersion d.id (tupleOf values) rowId version = .ok key ↔
      d.Supports version ∧ ∃ shape, d.shape db.catalog table.schema = .ok shape ∧
        OrderedKey.encodeCompleteVersion db.catalog d.id (OrderedKey.components shape values) rowId
          version.number = .ok key := by
  cases d with
  | index d =>
    have hvalues := hlen.trans (PostingDefinition.length_effectiveComponents d).symm
    simp only [encodeSecondaryIndexKeyVersion, PostingDefinition.id,
      h.referenceDefinitions_index hd, h.indexById_eq ht hd hid, table_eq_ok.mpr ht, ok_bind,
      projectedValues_tupleOf hvalues, bind_eq_ok, PostingDefinition.Supports, true_and,
      PostingDefinition.shape, pure_eq_ok, Except.ok.injEq]
    constructor
    · rintro ⟨types, htypes, hkey⟩
      rw [boundComponents_eq] at hkey
      exact ⟨_, ⟨types, htypes, rfl⟩, hkey⟩
    · rintro ⟨_, ⟨types, htypes, rfl⟩, hkey⟩
      rw [IndexDefinition.directions, ← boundComponents_eq] at hkey
      exact ⟨types, htypes, hkey⟩
  | reference d =>
    have hvalues : values.length = d.components.length := hlen
    cases version with
    | production =>
      simp [encodeSecondaryIndexKeyVersion, PostingDefinition.id,
        h.referenceDefinitions_reference hd, PostingDefinition.Supports, fail]
    | map =>
      simp only [encodeSecondaryIndexKeyVersion, PostingDefinition.id,
        h.referenceDefinitions_reference hd, projectedValues_tupleOf hvalues, ok_bind,
        PostingDefinition.Supports, true_and, PostingDefinition.shape, pure_eq_ok, Except.ok.injEq,
        exists_eq_left', ReferenceDefinition.boundComponents_eq]
      rfl

theorem expectedKey_eq_ok_none (d : PostingDefinition) :
    db.expectedKey version table.durable row d = .ok none ↔
      d.values table.name row.fields = .ok none := by
  unfold expectedKey
  rw [PostingDefinition.project_eq]
  cases hvalues : d.values table.name row.fields with
  | error e => simp
  | ok values =>
    cases values with
    | none => simp
    | some values =>
      simp only [ok_bind, Option.map_some, pure_eq_ok, map_eq_ok, reduceCtorEq, and_false,
        exists_false, Except.ok.injEq]

/-- **The key of a row under a definition** is the code of the values of its
components. -/
theorem expectedKey_eq_ok_some (h : PostingsConsistent db)
    (ht : db.objects[table.name]? = some table) (hd : d ∈ db.postings)
    (hid : d.tableId = table.id) {key : List UInt8} :
    db.expectedKey version table.durable row d = .ok (some key) ↔
      d.Supports version ∧ ∃ values shape, d.values table.name row.fields = .ok (some values) ∧
        d.shape db.catalog table.schema = .ok shape ∧
        OrderedKey.encodeCompleteVersion db.catalog d.id (OrderedKey.components shape values)
          (UInt64.ofNat row.id) version.number = .ok key := by
  unfold expectedKey
  rw [PostingDefinition.project_eq]
  cases hvalues : d.values table.name row.fields with
  | error e => simp
  | ok values =>
    cases values with
    | none => simp
    | some values =>
      have hencode := h.encodeSecondaryIndexKey_eq ht hd hid
        (PostingDefinition.length_values hvalues) version (UInt64.ofNat row.id) key
      simp only [ok_bind, Option.map_some, pure_eq_ok, map_eq_ok, Option.some.injEq,
        exists_eq_right, hencode, Except.ok.injEq]
      simp

end PostingsConsistent

/-! ## Complete keys -/

def durableIndexPrefixVersion (indexId : UInt64) (componentCount : UInt8) (version : ℕ) :
    List UInt8 :=
  OrderedKey.INDEX_MAGIC ++ beBytes 2 version ++ beBytes 8 indexId.toNat ++ [componentCount]

/-- A complete key: the identity of its definition, its tuple and its row. -/
def completeKey (version : ℕ) (indexId : UInt64) (count : ℕ) (tuple : List UInt8)
    (rowId : UInt64) : List UInt8 :=
  durableIndexPrefixVersion indexId (UInt8.ofNat count) version ++ (tuple ++ beBytes 8 rowId.toNat)

/-- The identity of the definition that a key belongs to. -/
def keyIndexId (key : List UInt8) : UInt64 := UInt64.ofNat (beNat ((key.drop 6).take 8))

def keyComponentCount (key : List UInt8) : ℕ := (key.getD 14 0).toNat

/-- The identity of the row that a key belongs to. -/
def keyRowId (key : List UInt8) : UInt64 := UInt64.ofNat (beNat (key.drop (key.length - 8)))

/-- A key without the identity of its row. -/
def keyTuple (key : List UInt8) : List UInt8 := key.take (key.length - 8)

@[simp] theorem length_durableIndexPrefixVersion (indexId : UInt64) (count : UInt8) (version : ℕ) :
    (durableIndexPrefixVersion indexId count version).length = 15 := by
  simp [durableIndexPrefixVersion, OrderedKey.INDEX_MAGIC]

section CompleteKey
variable {version count : ℕ} {indexId rowId : UInt64} {tuple : List UInt8}

@[simp] theorem length_completeKey :
    (completeKey version indexId count tuple rowId).length = 23 + tuple.length := by
  simp [completeKey]
  omega

theorem uint64_ofNat_beNat (n : UInt64) : UInt64.ofNat (beNat (beBytes 8 n.toNat)) = n := by
  rw [beNat_beBytes (by simpa using n.toNat_lt), UInt64.ofNat_toNat]

@[simp] theorem keyIndexId_completeKey :
    keyIndexId (completeKey version indexId count tuple rowId) = indexId := by
  have hdrop : ((completeKey version indexId count tuple rowId).drop 6).take 8 =
      beBytes 8 indexId.toNat := by
    simp only [completeKey, durableIndexPrefixVersion, append_assoc]
    rw [← append_assoc OrderedKey.INDEX_MAGIC, drop_left' (by
      simp [OrderedKey.INDEX_MAGIC]), take_left' (by simp)]
  rw [keyIndexId, hdrop, uint64_ofNat_beNat]

theorem keyComponentCount_completeKey (h : count < 256) :
    keyComponentCount (completeKey version indexId count tuple rowId) = count := by
  have hget : (completeKey version indexId count tuple rowId).getD 14 0 = UInt8.ofNat count := by
    simp only [completeKey, durableIndexPrefixVersion, getD_eq_getElem?_getD]
    rw [getElem?_append_left (by simp [OrderedKey.INDEX_MAGIC]),
      getElem?_append_right (by simp [OrderedKey.INDEX_MAGIC])]
    simp [OrderedKey.INDEX_MAGIC]
  rw [keyComponentCount, hget, UInt8.toNat_ofNat_of_lt' h]

theorem completeKey_eq_append : completeKey version indexId count tuple rowId =
      (durableIndexPrefixVersion indexId (UInt8.ofNat count) version ++ tuple) ++
        beBytes 8 rowId.toNat := by
  rw [completeKey, append_assoc]

theorem completeKey_eq_fields : completeKey version indexId count tuple rowId =
      OrderedKey.INDEX_MAGIC ++ beBytes 2 version ++ beBytes 8 indexId.toNat ++
        [UInt8.ofNat count] ++ tuple ++ beBytes 8 rowId.toNat := by
  rw [completeKey_eq_append, durableIndexPrefixVersion]

@[simp] theorem keyRowId_completeKey :
    keyRowId (completeKey version indexId count tuple rowId) = rowId := by
  have hdrop : (completeKey version indexId count tuple rowId).drop
      ((completeKey version indexId count tuple rowId).length - 8) = beBytes 8 rowId.toNat := by
    rw [length_completeKey, completeKey_eq_append, drop_left' (by simp; omega)]
  rw [keyRowId, hdrop, uint64_ofNat_beNat]

@[simp] theorem keyTuple_completeKey : keyTuple (completeKey version indexId count tuple rowId) =
      durableIndexPrefixVersion indexId (UInt8.ofNat count) version ++ tuple := by
  rw [keyTuple, length_completeKey, completeKey_eq_append, take_left' (by simp; omega)]

/-- A complete key is found again from its two parts. -/
theorem keyTuple_append_keyRowId : keyTuple (completeKey version indexId count tuple rowId) ++
      beBytes 8 (keyRowId (completeKey version indexId count tuple rowId)).toNat =
      completeKey version indexId count tuple rowId := by
  rw [keyTuple_completeKey, keyRowId_completeKey, completeKey_eq_append]

end CompleteKey

theorem OrderedKey.encodeCompleteVersion_eq_ok_iff {catalog : Catalog} {version : ℕ}
    {indexId rowId : UInt64} {cs : List OrderedKey.Component} {key : List UInt8} :
    OrderedKey.encodeCompleteVersion catalog indexId cs rowId version = .ok key ↔
      ∃ tuple, OrderedKey.encodeTupleVersion catalog cs version = .ok tuple ∧
        23 + tuple.length ≤ OrderedKey.MAX_COMPLETE_INDEX_KEY_BYTES ∧
        key = completeKey version indexId cs.length tuple rowId := by
  constructor
  · intro h
    obtain ⟨tuple, htuple, h⟩ := of_bind h
    refine ⟨tuple, htuple, ?_⟩
    obtain ⟨-, h⟩ := of_refused h
    dsimp only at h
    obtain ⟨hlen, h⟩ := of_refused h
    cases h
    rw [← completeKey_eq_fields, length_completeKey] at hlen
    exact ⟨Nat.not_lt.mp hlen, completeKey_eq_fields.symm⟩
  · rintro ⟨tuple, htuple, hlen, rfl⟩
    have hcount : cs.length ≤ MAX_INDEX_COMPONENTS := (encodeTupleVersion_eq_ok htuple).1
    refine bind_eq_ok.mpr ⟨tuple, htuple, ?_⟩
    rw [if_neg (by simp [MAX_INDEX_COMPONENTS] at hcount; omega)]
    rw [← completeKey_eq_fields]
    exact if_neg (Nat.not_lt.mpr (length_completeKey.trans_le hlen))

end UnionId
