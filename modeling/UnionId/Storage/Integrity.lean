import UnionId.Codec.Sound
import UnionId.Db.ReferenceExact
import UnionId.Lib.Scan
import UnionId.Storage.Posting

/-!
# The bounded integrity check

A storage generation is a table of encoded rows and a table of index keys. The check reads
both once: the rows, to see that each decodes and that its postings are in the index table,
and the index keys, to see that each is the key of a stored row. It keeps no set of keys;
that the two tables agree follows from the two scans and a count, and uniqueness from
neighbouring keys.

Keys are taken without the prefix of their generation, and the statistics that the check
returns are left out, except the number of index keys.
-/
namespace UnionId

open Lib Std List Database

/-! ## The check -/

/-- The logical contents of a storage generation. -/
structure Generation where
  rows : ExtTreeMap (List UInt8) (List UInt8)
  indexes : ExtTreeSet (List UInt8)

def encodeRowKey (tableId rowId : UInt64) : List UInt8 :=
  beBytes 8 tableId.toNat ++ beBytes 8 rowId.toNat

def decodeRowKey (key : List UInt8) : Result (UInt64 × UInt64) :=
  if key.length ≠ 16 then storageFails "invalid durable row key"
  else pure (UInt64.ofNat (beNat (key.take 8)), UInt64.ofNat (beNat (key.drop 8)))

def OrderedKey.validateCompleteVersion (key : List UInt8) (expected : ℕ) : Result Unit :=
  if key.length < 23 ∨ key.length > OrderedKey.MAX_COMPLETE_INDEX_KEY_BYTES ∨
      key.take 4 ≠ OrderedKey.INDEX_MAGIC then
    storageFails "invalid secondary index key"
  else if beNat ((key.drop 4).take 2) ≠ expected then
    storageFails ("unsupported secondary index key version " ++
      toString (beNat ((key.drop 4).take 2)) : String)
  else if keyComponentCount key = 0 ∨ keyComponentCount key > MAX_INDEX_COMPONENTS then
    storageFails "invalid secondary index component count"
  else pure ()

def validateIndexKey (key : List UInt8) (expectedVersion : ℕ) : Result Unit :=
  if key.length < 23 ∨ key.take 4 ≠ OrderedKey.INDEX_MAGIC then
    storageFails "invalid secondary index key"
  else if beNat ((key.drop 4).take 2) ≠ expectedVersion then
    storageFails ("unsupported secondary index key version " ++
      toString (beNat ((key.drop 4).take 2)) : String)
  else OrderedKey.validateCompleteVersion key expectedVersion

/-- One end of a range of complete keys. -/
def durableIndexBound (start : List UInt8) (lower : Bool) : Bound → Bound
  | .included tuple =>
    .included (start ++ tuple ++ beBytes 8 (if lower then 0 else U64_LIMIT - 1))
  | .excluded tuple =>
    .excluded (start ++ tuple ++ beBytes 8 (if lower then U64_LIMIT - 1 else 0))
  | .unbounded => .unbounded

/-- The complete keys whose tuples lie in a range. -/
def durableIndexBounds (indexId : UInt64) (componentCount : UInt8) (bounds : EncodedIndexBounds)
    (version : ℕ) : EncodedIndexBounds :=
  let start := durableIndexPrefixVersion indexId componentCount version
  { lower := match bounds.lower with
      | .unbounded => .included start
      | bound => durableIndexBound start true bound
    upper := match bounds.upper with
      | .unbounded => match prefixSuccessor start with
        | some next => .excluded next
        | none => .unbounded
      | bound => durableIndexBound start false bound }

def Database.decodeSourceRow (db : Database) (name : String) (rowId : UInt64)
    (bytes : List UInt8) : Result Row := do
  let table ← db.table name
  if rowId.toNat ≥ table.nextRowId then
    storageFails ("table '" ++ name ++ "' has a row ID beyond its allocation cursor" : String)
  else do
    let fields ← decodeFields db.catalog table bytes
    pure ⟨rowId.toNat, fields⟩

/-- The tables and posting definitions of a catalog, in its order. A map by identity keeps
the last entry of an identity. -/
structure PostingCatalog where
  tables : List DurableTable
  definitions : List PostingDefinition

namespace PostingCatalog

def table (catalog : PostingCatalog) (id : UInt64) : Option DurableTable :=
  catalog.tables.reverse.find? fun table => table.id = id

def definition (catalog : PostingCatalog) (id : UInt64) : Option PostingDefinition :=
  catalog.definitions.reverse.find? fun definition => definition.id = id

def byTable (catalog : PostingCatalog) (id : UInt64) : List PostingDefinition :=
  catalog.definitions.filter fun definition => definition.tableId = id

def addDefinition (catalog : PostingCatalog) (definition : PostingDefinition) :
    Result PostingCatalog :=
  if (catalog.table definition.tableId).isNone then storageFails "posting source table is missing"
  else pure { catalog with definitions := catalog.definitions ++ [definition] }

def addEntry (catalog : PostingCatalog) : DurableCatalogEntry → Result PostingCatalog
  | .reference reference => catalog.addDefinition (.reference reference)
  | .index name index =>
    match catalog.table index.tableId with
    | some table =>
      if table.name = name then catalog.addDefinition (.index index)
      else storageFails "index references an unknown durable table"
    | none => storageFails "index references an unknown durable table"
  | _ => pure catalog

end PostingCatalog

def DurableCatalogEntry.table? : DurableCatalogEntry → Option DurableTable
  | .table t => some t
  | _ => none

def Database.durableTables (db : Database) : List DurableTable :=
  db.durableCatalogEntries.filterMap DurableCatalogEntry.table?

def Database.postingCatalog (db : Database) : Result PostingCatalog :=
  db.durableCatalogEntries.foldlM PostingCatalog.addEntry ⟨db.durableTables, []⟩

namespace Database

variable (db : Database) (version : IndexKeyVersion) (generation : Generation) (missing : Error)

/-- Look for a key of the target index with the values of a reference. -/
def checkTarget (row : Row) (reference : ReferenceDefinition) : Result Unit := do
  let (_, targetIndex) ← db.referenceTargetIndex reference
  match ← db.referenceTargetBoundary reference row.fields with
  | none => storageFails "present reference has no target boundary"
  | some boundary =>
    let bounds := durableIndexBounds targetIndex.id (UInt8.ofNat reference.components.length)
      (.point boundary) version.number
    if generation.indexes.toList.any bounds.contains then pure () else throw missing

def requireTarget (row : Row) : PostingDefinition → Result Unit
  | .reference reference => db.checkTarget version generation missing row reference
  | .index _ => pure ()

/-- Check one posting of a stored row, and count it. -/
def checkPosting (table : DurableTable) (row : Row) (expected : ℕ)
    (definition : PostingDefinition) : Result ℕ := do
  match ← db.expectedKey version table row definition with
  | none => pure expected
  | some key =>
    if key ∉ generation.indexes then
      storageFails (("durable secondary indexes do not match the stored rows and catalog: row " ++
        toString row.id ++ " is missing from " : String) ++ definition.description table)
    else do
      db.requireTarget version generation missing row definition
      pure (expected + 1)

/-- The table and the row that an entry of the row table holds. -/
def readEntry (catalog : PostingCatalog) (entry : List UInt8 × List UInt8) :
    Result (DurableTable × Row) := do
  let (tableId, rowId) ← decodeRowKey entry.1
  match catalog.table tableId with
  | none => storageFails ("row references unknown table ID " ++ toString tableId : String)
  | some table => do
    let row ← db.decodeSourceRow table.name rowId entry.2
    pure (table, row)

def checkRow (catalog : PostingCatalog) (expected : ℕ) (entry : List UInt8 × List UInt8) :
    Result ℕ := do
  let (table, row) ← db.readEntry catalog entry
  (catalog.byTable table.id).foldlM (db.checkPosting version generation missing table row) expected

/-- The definition and the table of an index key, which must be the key of a stored row. -/
def checkKey (catalog : PostingCatalog) (key : List UInt8) :
    Result (PostingDefinition × DurableTable) := do
  validateIndexKey key version.number
  match catalog.definition (keyIndexId key) with
  | none =>
    storageFails ("secondary index references unknown index ID " ++
      toString (keyIndexId key) : String)
  | some definition =>
    if keyComponentCount key ≠ definition.componentCount then
      storageFails "index posting component count does not match its catalog definition"
    else match catalog.table definition.tableId with
      | none => storageFails "posting source table is missing"
      | some table =>
        match generation.rows[encodeRowKey table.id (keyRowId key)]? with
        | none =>
          storageFails (definition.description table ++
            (" references a missing row " ++ toString (keyRowId key) : String))
        | some bytes => do
          let row ← db.decodeSourceRow table.name (keyRowId key) bytes
          match ← db.expectedKey version table row definition with
          | none =>
            storageFails (definition.description table ++
              (" has a posting for excluded row " ++ toString (keyRowId key) : String))
          | some expected =>
            if key ≠ expected then
              storageFails (definition.description table ++
                (" does not match source row " ++ toString (keyRowId key) : String))
            else pure (definition, table)

/-- Check one index key. A key of a unique index is remembered for the next one. -/
def checkEntry (catalog : PostingCatalog) (state : Option (List UInt8) × ℕ) (key : List UInt8) :
    Result (Option (List UInt8) × ℕ) := do
  let (definition, table) ← db.checkKey version generation catalog key
  let unique := definition.isUnique table
  if unique && state.1 = some (keyTuple key) then
    storageFails ("unique " ++ definition.description table ++ " contains duplicate values")
  else pure (if unique then some (keyTuple key) else none, state.2 + 1)

/-- The check of a generation, with the error for a reference without a target. -/
def validateBoundedIntegrity : Result ℕ := do
  let catalog ← db.postingCatalog
  let expected ← generation.rows.toList.foldlM (db.checkRow version generation missing catalog) 0
  let (_, checked) ← generation.indexes.toList.foldlM
    (db.checkEntry version generation catalog) (none, 0)
  if checked ≠ expected then
    storageFails ("secondary index cardinality mismatch: expected " ++ toString expected ++
      ", found " ++ toString checked : String)
  else pure checked

end Database

/-! ## Intact generations -/

/-- The bytes of a row: its table is known, its identity is below the cursor of the table,
and the bytes decode to a well-typed record. -/
structure HoldsRow (db : Database) (table : Table) (row : Row) (bytes : List UInt8) : Prop where
  known : db.objects[table.name]? = some table
  below : row.id < table.nextRowId
  word : row.id < U64_LIMIT
  typed : ∃ value, Codec.decodeValue db.catalog table.rowScalarType bytes = .ok value ∧
    db.catalog.HasType MAX_DEPTH table.rowScalarType value ∧ value.unwrapped = .record row.fields

def Table.rowKeyOf (table : Table) (row : Row) : List UInt8 :=
  encodeRowKey table.id (UInt64.ofNat row.id)

def Generation.Stores (generation : Generation) (db : Database) (table : Table)
    (row : Row) : Prop :=
  ∃ bytes, generation.rows[table.rowKeyOf row]? = some bytes ∧ HoldsRow db table row bytes

/-- A row must have a key in the index table. -/
structure Posted (db : Database) (version : IndexKeyVersion) (table : Table) (row : Row)
    (definition : PostingDefinition) (key : List UInt8) : Prop where
  declared : definition ∈ db.postings
  owned : definition.tableId = table.id
  key_eq : db.expectedKey version table.durable row definition = .ok (some key)

/-- **An intact generation.** Every entry of the row table is a row; the index table holds
exactly the keys of the rows under the indexes and references of their tables; no two rows
share a key of a unique, partially unique or primary index; and every reference that is
present has its target. -/
structure Intact (db : Database) (version : IndexKeyVersion) (generation : Generation) : Prop where
  rows : ∀ key bytes, generation.rows[key]? = some bytes → ∃ table row,
    HoldsRow db table row bytes ∧ key = table.rowKeyOf row
  keyed : ∀ table row, generation.Stores db table row → ∀ definition ∈ db.postings,
    definition.tableId = table.id →
    ∃ key, db.expectedKey version table.durable row definition = .ok key
  agrees : ∀ key, key ∈ generation.indexes ↔ ∃ table row definition,
    generation.Stores db table row ∧ Posted db version table row definition key
  unique : ∀ table row row' definition key key', generation.Stores db table row →
    generation.Stores db table row' → definition.isUnique table.durable = true →
    Posted db version table row definition key → Posted db version table row' definition key' →
    keyTuple key = keyTuple key' → row.id = row'.id
  targets : ∀ table row, generation.Stores db table row →
    ∀ reference ∈ valuesOf db.referenceDefinitions, reference.tableId = table.id →
    ∀ key, reference.sourceKey db.catalog row = .ok (some key) → ∃ target row',
      generation.Stores db target row' ∧ target.id = reference.targetTableId ∧
      reference.targetKey db.catalog row' = .ok (some key)

/-! ## Reading the tables -/

theorem decodeRowKey_eq_ok {key : List UInt8} {tableId rowId : UInt64} :
    decodeRowKey key = .ok (tableId, rowId) ↔ key = encodeRowKey tableId rowId := by
  unfold decodeRowKey encodeRowKey
  constructor
  · intro h
    obtain ⟨hlen, h⟩ := of_refused h
    have hlen : key.length = 16 := not_not.mp hlen
    have hword : ∀ part : List UInt8, part.length = 8 →
        beBytes 8 (UInt64.ofNat (beNat part)).toNat = part := by
      intro part hpart
      have hlt := beNat_lt part
      rw [hpart] at hlt
      rw [UInt64.toNat_ofNat_of_lt' (by simpa using hlt)]
      simpa [hpart] using beBytes_beNat part
    cases h
    rw [hword _ (by simp [hlen]), hword _ (by simp [hlen]), take_append_drop]
  · rintro rfl
    rw [if_neg (by simp), take_left' (by simp), drop_left' (by simp), uint64_ofNat_beNat,
      uint64_ofNat_beNat]
    rfl

section Reading
variable {db : Database} (h : PostingsConsistent db)

include h

/-- Decoding accepts exactly the rows of a table. -/
theorem decodeSourceRow_eq_ok {table : Table} (ht : db.objects[table.name]? = some table)
    {rowId : UInt64} {bytes : List UInt8} {row : Row} :
    db.decodeSourceRow table.name rowId bytes = .ok row ↔
      HoldsRow db table row bytes ∧ rowId = UInt64.ofNat row.id := by
  simp only [decodeSourceRow, table_eq_ok.mpr ht, ok_bind]
  constructor
  · intro hrow
    obtain ⟨hbelow, hrow⟩ := of_refused hrow
    obtain ⟨fields, hfields, rfl⟩ := of_bind_pure hrow
    obtain ⟨value, hvalue, hfields⟩ := of_bind hfields
    have hmem : table ∈ valuesOf db.objects := mem_valuesOf.mpr ⟨_, ht⟩
    have htyped := Codec.decodeValue_hasType h.wellFormed h.uniqueIds (h.rowTypes table hmem)
      hvalue
    refine ⟨⟨ht, Nat.not_le.mp hbelow, rowId.toNat_lt, value, hvalue, htyped, ?_⟩, by simp⟩
    cases hrecord : value.unwrapped <;> rw [hrecord] at hfields <;> cases hfields
    rfl
  · rintro ⟨⟨-, hbelow, hword, value, hvalue, -, hrecord⟩, rfl⟩
    have hid : (UInt64.ofNat row.id).toNat = row.id := UInt64.toNat_ofNat_of_lt' hword
    rw [hid, if_neg (Nat.not_le.mpr hbelow)]
    refine bind_eq_ok.mpr ⟨row.fields, bind_eq_ok.mpr ⟨value, hvalue, ?_⟩, rfl⟩
    rw [hrecord]
    rfl

variable {t : DurableTable}

omit h in
theorem mem_durableTables (htables : TablesWF db) : t ∈ db.durableTables ↔
      ∃ table : Table, db.objects[table.name]? = some table ∧ t = table.durable := by
  simp only [durableTables, durableCatalogEntries, mem_filterMap,
    mem_mergeSort, mem_append, mem_map, mem_flatMap]
  constructor
  · rintro ⟨entry, (((⟨_, -, rfl⟩ | ⟨table, htable, rfl⟩) | ⟨_, -, _, -, rfl⟩) | ⟨_, -, rfl⟩) |
      ⟨_, -, rfl⟩, hentry⟩ <;> cases hentry
    obtain ⟨name, hname⟩ := mem_valuesOf.mp htable
    exact ⟨table, by rwa [htables.named name table hname], rfl⟩
  · rintro ⟨table, htable, rfl⟩
    exact ⟨.table table.durable,
      .inl (.inl (.inl (.inr ⟨table, mem_valuesOf.mpr ⟨_, htable⟩, rfl⟩))), rfl⟩

theorem postingTable_eq_some (definitions : List PostingDefinition) {id : UInt64} :
    PostingCatalog.table ⟨db.durableTables, definitions⟩ id = some t ↔
      ∃ table : Table, db.objects[table.name]? = some table ∧ table.id = id ∧
        t = table.durable := by
  unfold PostingCatalog.table
  constructor
  · intro hfind
    obtain ⟨table, htable, rfl⟩ := (mem_durableTables h.tables).mp
      (mem_reverse.mp (mem_of_find?_eq_some hfind))
    have hid : table.durable.id = id := by simpa using find?_some hfind
    exact ⟨table, htable, hid, rfl⟩
  · rintro ⟨table, htable, rfl, rfl⟩
    have hmem := (mem_durableTables h.tables).mpr ⟨table, htable, rfl⟩
    obtain ⟨t, ht⟩ := Option.isSome_iff_exists.mp (find?_isSome.mpr
      ⟨table.durable, mem_reverse.mpr hmem, decide_eq_true rfl⟩ :
        (db.durableTables.reverse.find? fun t => t.id = table.id).isSome)
    obtain ⟨table', htable', rfl⟩ := (mem_durableTables h.tables).mp
      (mem_reverse.mp (mem_of_find?_eq_some ht))
    have hid : table'.durable.id = table.id := by simpa using find?_some ht
    rw [ht, h.table_eq_of_id_eq htable' htable hid]

theorem addDefinition_eq (definitions : List PostingDefinition) {d : PostingDefinition}
    (hd : d ∈ db.postings) : PostingCatalog.addDefinition ⟨db.durableTables, definitions⟩ d =
      .ok ⟨db.durableTables, definitions ++ [d]⟩ := by
  obtain ⟨table, htable, hid⟩ := h.exists_table hd
  have hfound := (postingTable_eq_some h definitions).mpr ⟨table, htable, hid, rfl⟩
  simp only [PostingCatalog.addDefinition, hfound]
  rfl

theorem addEntry_eq (definitions : List PostingDefinition) {entry : DurableCatalogEntry}
    (hentry : entry ∈ db.durableCatalogEntries) :
    PostingCatalog.addEntry ⟨db.durableTables, definitions⟩ entry =
      .ok ⟨db.durableTables, definitions ++ entry.posting?.toList⟩ := by
  cases entry with
  | index name d =>
    have hd : .index d ∈ db.postings := mem_filterMap.mpr ⟨_, hentry, rfl⟩
    obtain ⟨table, htable, hid⟩ := h.indexed name d (index_mem_entries.mp hentry)
    have hname : table.name = name := h.tables.named name table htable
    have hfound := (postingTable_eq_some h definitions).mpr
      ⟨table, by rwa [hname], hid.symm, rfl⟩
    simp only [PostingCatalog.addEntry, hfound]
    exact (if_pos hname).trans (addDefinition_eq h definitions hd)
  | reference d =>
    exact addDefinition_eq h definitions (mem_filterMap.mpr ⟨_, hentry, rfl⟩)
  | _ => simp [PostingCatalog.addEntry, DurableCatalogEntry.posting?]

theorem addEntries_eq {entries : List DurableCatalogEntry} (definitions : List PostingDefinition)
    (hentries : ∀ entry ∈ entries, entry ∈ db.durableCatalogEntries) :
    entries.foldlM PostingCatalog.addEntry ⟨db.durableTables, definitions⟩ =
      .ok ⟨db.durableTables, definitions ++ entries.filterMap DurableCatalogEntry.posting?⟩ := by
  induction entries generalizing definitions with
  | nil => simp
  | cons entry entries ih =>
    obtain ⟨hentry, hentries⟩ := forall_mem_cons.mp hentries
    rw [foldlM_cons, addEntry_eq h definitions hentry, ok_bind, ih _ hentries]
    cases hp : entry.posting? <;> simp [hp]

/-- The catalog of the check is that of the database. -/
theorem postingCatalog_eq : db.postingCatalog = .ok ⟨db.durableTables, db.postings⟩ :=
  addEntries_eq h [] fun _ hentry => hentry

theorem postingDefinition_eq_some {id : UInt64} {d : PostingDefinition} :
    PostingCatalog.definition ⟨db.durableTables, db.postings⟩ id = some d ↔
      d ∈ db.postings ∧ d.id = id := by
  have hnodup : (db.postings.reverse.map PostingDefinition.id).Nodup := by
    rw [map_reverse, nodup_reverse]
    exact h.distinct
  rw [← mem_reverse]
  exact find?_key_eq_some hnodup

theorem readEntry_eq_ok {entry : List UInt8 × List UInt8} {row : Row} :
    db.readEntry ⟨db.durableTables, db.postings⟩ entry = .ok (t, row) ↔
      ∃ table : Table, t = table.durable ∧ HoldsRow db table row entry.2 ∧
        entry.1 = table.rowKeyOf row := by
  unfold readEntry
  rw [bind_eq_ok]
  constructor
  · rintro ⟨⟨tableId, rowId⟩, hkey, hrow⟩
    dsimp only at hrow
    split at hrow
    · cases hrow
    · rename_i t' ht'
      obtain ⟨table, htable, rfl, rfl⟩ := (postingTable_eq_some h db.postings).mp ht'
      obtain ⟨row', hrow', hrow⟩ := of_bind hrow
      cases hrow
      obtain ⟨hholds, rfl⟩ := (decodeSourceRow_eq_ok h htable).mp hrow'
      exact ⟨table, rfl, hholds, decodeRowKey_eq_ok.mp hkey⟩
  · rintro ⟨table, rfl, hholds, hkey⟩
    refine ⟨(table.id, UInt64.ofNat row.id), decodeRowKey_eq_ok.mpr hkey, ?_⟩
    have hfound := (postingTable_eq_some h db.postings).mpr ⟨table, hholds.known, rfl, rfl⟩
    simp only [hfound]
    exact bind_eq_ok.mpr ⟨row, (decodeSourceRow_eq_ok h hholds.known).mpr ⟨hholds, rfl⟩, rfl⟩

end Reading

/-! ## Keys of rows -/

theorem OrderedKey.encodeTupleVersion_pos {catalog : Catalog} {version : ℕ}
    {cs : List OrderedKey.Component} {b : List UInt8}
    (h : OrderedKey.encodeTupleVersion catalog cs version = .ok b) : 0 < cs.length := by
  unfold encodeTupleVersion at h
  obtain ⟨hlen, h⟩ := of_refused h
  have hne : ¬cs.isEmpty = true := (not_or.mp hlen).1
  simpa [length_pos_iff] using hne

section Keys
variable {db : Database} {version : IndexKeyVersion} {table table' : Table} {row row' : Row}
  {d d' : PostingDefinition} {key key' : List UInt8}

theorem Posted.exists_tuple (h : PostingsConsistent db) (ht : db.objects[table.name]? = some table)
    (hp : Posted db version table row d key) :
    ∃ values shape tuple, d.values table.name row.fields = .ok (some values) ∧
      d.shape db.catalog table.schema = .ok shape ∧
      OrderedKey.encodeTupleVersion db.catalog (OrderedKey.components shape values) version.number =
        .ok tuple ∧
      23 + tuple.length ≤ OrderedKey.MAX_COMPLETE_INDEX_KEY_BYTES ∧
      (0 < d.componentCount ∧ d.componentCount ≤ MAX_INDEX_COMPONENTS) ∧
      key = completeKey version.number d.id d.componentCount tuple (UInt64.ofNat row.id) := by
  obtain ⟨-, values, shape, hvalues, hshape, hkey⟩ :=
    (h.expectedKey_eq_ok_some ht hp.declared hp.owned).mp hp.key_eq
  obtain ⟨tuple, htuple, hlen, rfl⟩ := OrderedKey.encodeCompleteVersion_eq_ok_iff.mp hkey
  have hcount : (OrderedKey.components shape values).length = d.componentCount := by
    simp [OrderedKey.components, PostingDefinition.length_shape hshape,
      PostingDefinition.length_values hvalues]
  have hpos := OrderedKey.encodeTupleVersion_pos htuple
  have hmax := (OrderedKey.encodeTupleVersion_eq_ok htuple).1
  rw [hcount] at hpos hmax
  exact ⟨values, shape, tuple, hvalues, hshape, htuple, hlen, ⟨hpos, hmax⟩, by rw [hcount]⟩

/-- A key belongs to one definition and one row. -/
theorem Posted.eq_of_key_eq (h : PostingsConsistent db) (ht : db.objects[table.name]? = some table)
    (ht' : db.objects[table'.name]? = some table') (hrow : row.id < U64_LIMIT)
    (hrow' : row'.id < U64_LIMIT) (hp : Posted db version table row d key)
    (hp' : Posted db version table' row' d' key) : d = d' ∧ table = table' ∧ row.id = row'.id := by
  obtain ⟨-, -, tuple, -, -, -, -, -, hkey⟩ := hp.exists_tuple h ht
  obtain ⟨-, -, tuple', -, -, -, -, -, hkey'⟩ := hp'.exists_tuple h ht'
  have hid := congrArg keyIndexId (hkey.symm.trans hkey')
  have hword := congrArg keyRowId (hkey.symm.trans hkey')
  rw [keyIndexId_completeKey, keyIndexId_completeKey] at hid
  rw [keyRowId_completeKey, keyRowId_completeKey] at hword
  have hd := h.eq_of_id_eq hp.declared hp'.declared hid
  refine ⟨hd, h.table_eq_of_id_eq ht ht' ?_, ?_⟩
  · rw [← hp.owned, ← hp'.owned, hd]
  · have hnat := congrArg UInt64.toNat hword
    rwa [UInt64.toNat_ofNat_of_lt' hrow, UInt64.toNat_ofNat_of_lt' hrow'] at hnat

/-- A key that begins with the code of a tuple of a definition is a key of this definition
and of this tuple: codes are not prefixes of each other. -/
theorem Posted.keyTuple_eq_of_prefix (h : PostingsConsistent db)
    (ht : db.objects[table.name]? = some table) (ht' : db.objects[table'.name]? = some table')
    (hd : d ∈ db.postings) (hid : d.tableId = table.id) {values : List Value}
    (hlen : values.length = d.componentCount) {shape : List (ScalarType × Bool)}
    (hshape : d.shape db.catalog table.schema = .ok shape) {tuple : List UInt8}
    (htuple : OrderedKey.encodeTupleVersion db.catalog (OrderedKey.components shape values)
      version.number = .ok tuple) (hp : Posted db version table' row' d' key)
    (hstart : durableIndexPrefixVersion d.id (UInt8.ofNat d.componentCount)
      version.number ++ tuple <+:
      key) : d' = d ∧ keyTuple key =
      durableIndexPrefixVersion d.id (UInt8.ofNat d.componentCount) version.number ++ tuple := by
  obtain ⟨values', shape', tuple', hvalues', hshape', htuple', -, -, rfl⟩ := hp.exists_tuple h ht'
  have hstart' := (prefix_append _ tuple).trans hstart
  have hheader : durableIndexPrefixVersion d.id (UInt8.ofNat d.componentCount) version.number =
      durableIndexPrefixVersion d'.id (UInt8.ofNat d'.componentCount) version.number :=
    (prefix_of_prefix_length_le hstart' (prefix_append _ _) (by simp)).eq_of_length
      (by simp)
  have hids : d.id = d'.id := by
    have hkeys : completeKey version.number d.id d.componentCount tuple 0 =
        completeKey version.number d'.id d'.componentCount tuple 0 := by
      rw [completeKey, completeKey, hheader]
    simpa using congrArg keyIndexId hkeys
  obtain rfl := h.eq_of_id_eq hd hp.declared hids
  obtain rfl := h.table_eq_of_id_eq ht ht' (hid.symm.trans hp.owned)
  obtain rfl : shape = shape' := by simpa [hshape] using hshape'
  have hshapeLen := PostingDefinition.length_shape hshape
  obtain ⟨os, -, hcode⟩ := OrderedKey.codeCompare_encodeComponents
    ((PostingDefinition.length_values hvalues').trans hshapeLen.symm) (hlen.trans hshapeLen.symm)
    (OrderedKey.encodeTupleVersion_eq_ok htuple').2 (OrderedKey.encodeTupleVersion_eq_ok htuple).2
  rw [completeKey, prefix_append_right_inj, prefix_append_iff hcode] at hstart
  rw [hstart] at hcode
  have hsame : tuple' = tuple := LawfulEqOrd.eq_of_compare (compare_of_codeCompare hcode)
  rw [keyTuple_completeKey, hsame]
  exact ⟨rfl, rfl⟩

end Keys

/-! ## Targets of references -/

section Targets
variable {db : Database} {reference : ReferenceDefinition} {target : Table}
  {index : IndexDefinition}

/-- The table and the index of a target belong to the catalog. -/
theorem ReferenceBound.declared (hb : ReferenceBound db reference target index)
    (h : PostingsConsistent db) :
    db.objects[target.name]? = some target ∧ target.id = reference.targetTableId ∧
      .index index ∈ db.postings ∧ index.tableId = target.id := by
  obtain ⟨table, htable, hfind⟩ := of_bind hb.resolves
  have hid : db.tableById reference.targetTableId = some table := by
    unfold targetTable at htable
    split at htable
    · rename_i t ht
      cases htable
      exact ht
    · cases htable
  split at hfind
  · rename_i i hi
    cases hfind
    obtain ⟨hknown, htid⟩ := h.tables.tableById_eq_some.mp hid
    have hmem := mem_of_find?_eq_some hi
    obtain ⟨table', ht', hid'⟩ := h.indexed _ _ hmem
    obtain rfl : target = table' := by simpa [hknown] using ht'
    exact ⟨hknown, htid, index_mem_postings.mpr ⟨_, hmem⟩, hid'⟩
  · cases hfind

theorem ReferenceBound.componentCount_eq (hb : ReferenceBound db reference target index) :
    (PostingDefinition.index index).componentCount = reference.components.length := by
  rw [← PostingDefinition.length_effectiveComponents]
  simpa using congrArg List.length hb.columns

theorem ReferenceBound.shape_eq (hb : ReferenceBound db reference target index) :
    (PostingDefinition.index index).shape db.catalog target.schema =
      .ok (reference.targetTypes.zip index.directions) :=
  bind_eq_ok.mpr ⟨_, mapM_fieldType_eq hb.columns hb.types, rfl⟩

variable {generation : Generation} {table : Table} {row row' : Row} {key : List UInt8}

/-- In the newer codec the posting of an index is its key in memory. -/
theorem Posted.rowKey_eq (h : PostingsConsistent db) (ht : db.objects[table.name]? = some table)
    (hp : Posted db .map table row (.index index) key) :
    ∃ tuple, rowKey db.catalog table.schema table.name index row = .ok (some tuple) ∧
      key = completeKey OrderedKey.MAP_INDEX_KEY_CODEC_VERSION index.id
        (PostingDefinition.index index).componentCount tuple (UInt64.ofNat row.id) := by
  obtain ⟨values, shape, tuple, hvalues, hshape, htuple, hlen, -, hkey⟩ := hp.exists_tuple h ht
  refine ⟨tuple, ?_, hkey⟩
  simp only [PostingDefinition.values] at hvalues
  split at hvalues
  · rename_i hincludes
    obtain ⟨values', hvalues, hsome⟩ := map_eq_ok.mp hvalues
    cases hsome
    obtain ⟨types, htypes, rfl⟩ := of_bind_pure hshape
    rw [IndexDefinition.directions, ← boundComponents_eq] at htuple
    rw [rowKey, includedKey, if_pos hincludes]
    refine bind_eq_ok.mpr ⟨tuple, ?_, rfl⟩
    exact bind_eq_ok.mpr ⟨values, hvalues, bind_eq_ok.mpr ⟨types, htypes, bind_eq_ok.mpr
      ⟨tuple, htuple, limitedKey_eq_ok.mpr ⟨hlen, rfl⟩⟩⟩⟩
  · cases hvalues

theorem Posted.sourceKey_eq {version : IndexKeyVersion} (h : PostingsConsistent db)
    (ht : db.objects[table.name]? = some table)
    (hp : Posted db version table row (.reference reference) key) :
    version = .map ∧ ∃ k, reference.sourceKey db.catalog row = .ok (some k) := by
  obtain ⟨hversion, -⟩ := (h.expectedKey_eq_ok_some ht hp.declared hp.owned).mp hp.key_eq
  obtain rfl : version = .map := hversion
  obtain ⟨values, shape, tuple, hvalues, hshape, htuple, hlen, -, -⟩ := hp.exists_tuple h ht
  cases hshape
  exact ⟨rfl, tuple, ReferenceDefinition.key_eq_ok_some.mpr ⟨values, hvalues, htuple, hlen⟩⟩

/-- The range of a tuple holds the complete keys that begin with it, and no others. -/
theorem durableIndexBounds_point {indexId : UInt64} {count : UInt8} {version : ℕ}
    {tuple : List UInt8} :
    (∀ key, (durableIndexBounds indexId count (.point tuple) version).contains key = true →
      durableIndexPrefixVersion indexId count version ++ tuple <+: key) ∧
    ∀ rowId : UInt64, (durableIndexBounds indexId count (.point tuple) version).contains
      (durableIndexPrefixVersion indexId count version ++ (tuple ++ beBytes 8 rowId.toNat)) =
        true := by
  simp only [durableIndexBounds, EncodedIndexBounds.point, durableIndexBound,
    EncodedIndexBounds.contains, Bool.and_eq_true, if_true, Bool.false_eq_true, if_false]
  constructor
  · rintro key ⟨hlow, hhigh⟩
    refine prefix_of_between (x := beBytes 8 0) (y := beBytes 8 (U64_LIMIT - 1)) ?_ ?_
    · intro hgt
      rw [hgt] at hlow
      cases hlow
    · intro hgt
      rw [hgt] at hhigh
      cases hhigh
  · intro rowId
    have hword : rowId.toNat < 256 ^ 8 := by simpa using rowId.toNat_lt
    rw [← append_assoc]
    constructor
    · rw [compare_append_of_codeCompare (codeCompare_self _), Ordering.eq_then,
        compare_beBytes (by simp) hword]
      exact Nat.isLE_compare.mpr (Nat.zero_le _)
    · rw [compare_append_of_codeCompare (codeCompare_self _), Ordering.eq_then,
        compare_beBytes hword (by simp [U64_LIMIT])]
      exact Nat.isLE_compare.mpr (Nat.le_pred_of_lt (by simpa [U64_LIMIT] using rowId.toNat_lt))

/-- **The lookup of a target is exact** when the index table holds the keys of the rows. -/
theorem checkTarget_eq_ok {version : IndexKeyVersion} (h : PostingsConsistent db)
    (hkeyed : ∀ table row, generation.Stores db table row → ∀ definition ∈ db.postings,
      definition.tableId = table.id →
      ∃ key, db.expectedKey version table.durable row definition = .ok key)
    (hagrees : ∀ key, key ∈ generation.indexes ↔ ∃ table row definition,
      generation.Stores db table row ∧ Posted db version table row definition key)
    (ht : db.objects[table.name]? = some table)
    (hp : Posted db version table row (.reference reference) key) (missing : Error) :
    db.checkTarget version generation missing row reference = .ok () ↔
      ∀ k, reference.sourceKey db.catalog row = .ok (some k) → ∃ target row',
        generation.Stores db target row' ∧ target.id = reference.targetTableId ∧
        reference.targetKey db.catalog row' = .ok (some k) := by
  obtain ⟨rfl, k, hk⟩ := hp.sourceKey_eq h ht
  obtain ⟨target, index, hb⟩ := h.bound reference (reference_mem_postings.mp hp.declared)
  obtain ⟨hknown, htid, hdeclared, howned⟩ := hb.declared h
  obtain ⟨values, boundary, hvalues, hboundary, hresolved⟩ := hb.boundary_of_sourceKey hk
  obtain ⟨values', hvalues', hcode, -⟩ := ReferenceDefinition.key_eq_ok_some.mp hk
  obtain rfl : values = values' := by simpa [hvalues] using hvalues'
  have hlen := ReferenceDefinition.length_componentValues hvalues
  have hencoded : OrderedKey.encodeTupleVersion db.catalog (OrderedKey.components
      (reference.targetTypes.zip index.directions) values) IndexKeyVersion.map.number =
        .ok boundary := hboundary
  have hcheck : db.checkTarget .map generation missing row reference = .ok () ↔
      ∃ key ∈ generation.indexes, (durableIndexBounds index.id
        (UInt8.ofNat reference.components.length) (.point boundary)
          OrderedKey.MAP_INDEX_KEY_CODEC_VERSION).contains key = true := by
    simp only [checkTarget, hb.resolves, ok_bind, hresolved]
    split
    · rename_i hany
      simp only [any_eq_true, ExtTreeSet.mem_toList] at hany
      exact iff_of_true rfl hany
    · rename_i hany
      simp only [any_eq_true, ExtTreeSet.mem_toList] at hany
      exact iff_of_false (by simp) hany
  rw [hcheck]
  constructor
  · rintro ⟨key', hmem, hcontains⟩ k' hk'
    obtain rfl : k = k' := by simpa [hk] using hk'
    obtain ⟨table', row', d', hstores, hp'⟩ := (hagrees key').mp hmem
    have ht' := hstores.choose_spec.2.known
    have hstart := durableIndexBounds_point.1 key' hcontains
    rw [← hb.componentCount_eq] at hstart
    obtain ⟨rfl, htuple⟩ := hp'.keyTuple_eq_of_prefix h hknown ht' hdeclared howned
      (hlen.trans hb.componentCount_eq.symm) hb.shape_eq hencoded hstart
    obtain rfl := h.table_eq_of_id_eq ht' hknown (hp'.owned.symm.trans howned)
    obtain ⟨tuple, hrow, rfl⟩ := hp'.rowKey_eq h ht'
    rw [keyTuple_completeKey] at htuple
    obtain rfl := append_cancel_left htuple
    obtain ⟨k', hk'⟩ := hb.targetKey_of_rowKey hrow
    obtain rfl := (hb.key_eq_iff hlen hcode hboundary hrow hk').mpr rfl
    exact ⟨table', row', hstores, htid, hk'⟩
  · intro hall
    obtain ⟨target', row', hstores, hid, hk'⟩ := hall k hk
    obtain rfl := h.table_eq_of_id_eq hstores.choose_spec.2.known hknown (hid.trans htid.symm)
    obtain ⟨key', hkey'⟩ := hkeyed _ row' hstores _ hdeclared howned
    cases key' with
    | none =>
      rw [PostingsConsistent.expectedKey_eq_ok_none] at hkey'
      have hincludes : index.includes row'.fields = true := by
        simp [IndexDefinition.includes, hb.total]
      simp [PostingDefinition.values, hincludes] at hkey'
    | some key' =>
      have hp' : Posted db .map target' row' (.index index) key' := ⟨hdeclared, howned, hkey'⟩
      obtain ⟨tuple, hrow, rfl⟩ := hp'.rowKey_eq h hknown
      obtain rfl := (hb.key_eq_iff hlen hcode hboundary hrow hk').mp rfl
      refine ⟨_, (hagrees _).mpr ⟨_, row', _, hstores, hp'⟩, ?_⟩
      rw [completeKey, hb.componentCount_eq]
      exact durableIndexBounds_point.2 _

end Targets

/-! ## The scan of the rows -/

section Rows
variable (db : Database) (version : IndexKeyVersion) (generation : Generation) (missing : Error)

/-- The key of a row under a definition, when it can be formed. -/
def keyOf (table : DurableTable) (row : Row) (definition : PostingDefinition) :
    Option (List UInt8) :=
  match db.expectedKey version table row definition with
  | .ok key => key
  | .error _ => none

/-- The keys that the entry of a row requires. -/
def entryKeys (catalog : PostingCatalog) (entry : List UInt8 × List UInt8) : List (List UInt8) :=
  match db.readEntry catalog entry with
  | .ok (table, row) =>
    (catalog.byTable table.id).flatMap fun definition =>
      (keyOf db version table row definition).toList
  | .error _ => []

/-- A posting that the scan accepts. -/
def PostingRight (table : DurableTable) (row : Row) (definition : PostingDefinition) : Prop :=
  ∃ key, db.expectedKey version table row definition = .ok key ∧ ∀ k, key = some k →
    k ∈ generation.indexes ∧ db.requireTarget version generation missing row definition = .ok ()

/-- An entry of the row table that the scan accepts. -/
def EntryRight (catalog : PostingCatalog) (entry : List UInt8 × List UInt8) : Prop :=
  ∃ table row, db.readEntry catalog entry = .ok (table, row) ∧
    ∀ definition ∈ catalog.byTable table.id,
      PostingRight db version generation missing table row definition

variable {db version generation missing} {m : ℕ}

theorem checkPosting_eq_ok {table : DurableTable} {row : Row} {definition : PostingDefinition}
    {n : ℕ} : db.checkPosting version generation missing table row n definition = .ok m ↔
      PostingRight db version generation missing table row definition ∧
        m = n + (keyOf db version table row definition).toList.length := by
  unfold checkPosting PostingRight keyOf
  cases db.expectedKey version table row definition with
  | error e => simp
  | ok key =>
    cases key with
    | none => simp [eq_comm]
    | some key =>
      simp only [ok_bind, Except.ok.injEq, Option.some.injEq, exists_eq_left', forall_eq',
        Option.toList_some, length_singleton]
      split
      · rename_i hmem
        simp [storageFails, fail, hmem]
      · rename_i hmem
        rw [bind_eq_ok]
        constructor
        · rintro ⟨_, htarget, hm⟩
          cases hm
          exact ⟨⟨not_not.mp hmem, htarget⟩, rfl⟩
        · rintro ⟨⟨-, htarget⟩, rfl⟩
          exact ⟨(), htarget, rfl⟩

theorem checkRow_eq_ok {catalog : PostingCatalog} {entry : List UInt8 × List UInt8} {n : ℕ} :
    db.checkRow version generation missing catalog n entry = .ok m ↔
      EntryRight db version generation missing catalog entry ∧
        m = n + (entryKeys db version catalog entry).length := by
  unfold checkRow EntryRight entryKeys
  cases db.readEntry catalog entry with
  | error e => simp
  | ok found =>
    obtain ⟨table, row⟩ := found
    have hstep : ∀ d ∈ catalog.byTable table.id, ∀ n m,
        db.checkPosting version generation missing table row n d = .ok m ↔
          PostingRight db version generation missing table row d ∧
            m = n + (keyOf db version table row d).toList.length :=
      fun _ _ _ _ => checkPosting_eq_ok
    simp only [ok_bind, Except.ok.injEq, Prod.mk.injEq, ← foldl_add_length]
    rw [foldlM_eq_ok_iff hstep]
    simp

/-- The scan of the rows succeeds when every entry is right, and counts their keys. -/
theorem scanRows_eq_ok {catalog : PostingCatalog} :
    generation.rows.toList.foldlM (db.checkRow version generation missing catalog) 0 = .ok m ↔
      (∀ entry ∈ generation.rows.toList, EntryRight db version generation missing catalog entry) ∧
        m = (generation.rows.toList.flatMap (entryKeys db version catalog)).length := by
  have hstep : ∀ entry ∈ generation.rows.toList, ∀ n m,
      db.checkRow version generation missing catalog n entry = .ok m ↔
        EntryRight db version generation missing catalog entry ∧
          m = n + (entryKeys db version catalog entry).length :=
    fun _ _ _ _ => checkRow_eq_ok
  rw [foldlM_eq_ok_iff hstep, foldl_add_length, Nat.zero_add]

end Rows

/-! ## The scan of the index keys -/

section Entries
variable {db : Database} {version : IndexKeyVersion} {generation : Generation}
  {catalog : PostingCatalog}

theorem validateIndexKey_completeKey {indexId rowId : UInt64} {count : ℕ} {tuple : List UInt8}
    (hpos : 0 < count) (hcount : count ≤ MAX_INDEX_COMPONENTS)
    (hlen : 23 + tuple.length ≤ OrderedKey.MAX_COMPLETE_INDEX_KEY_BYTES) :
    validateIndexKey (completeKey version.number indexId count tuple rowId) version.number =
      .ok () := by
  have hmagic : (completeKey version.number indexId count tuple rowId).take 4 =
      OrderedKey.INDEX_MAGIC := by
    simp only [completeKey, durableIndexPrefixVersion, append_assoc]
    exact take_left' rfl
  have hversion : beNat (((completeKey version.number indexId count tuple rowId).drop 4).take 2) =
      version.number := by
    have hbytes : ((completeKey version.number indexId count tuple rowId).drop 4).take 2 =
        beBytes 2 version.number := by
      simp only [completeKey, durableIndexPrefixVersion, append_assoc]
      rw [drop_left' (by rfl), take_left' (by simp)]
    rw [hbytes, beNat_beBytes]
    cases version <;> decide
  have hkeyCount : keyComponentCount (completeKey version.number indexId count tuple rowId) =
      count := keyComponentCount_completeKey (by
    simp only [MAX_INDEX_COMPONENTS] at hcount
    omega)
  simp only [validateIndexKey, OrderedKey.validateCompleteVersion, hmagic, hversion, hkeyCount,
    length_completeKey]
  rw [if_neg (by simp), if_neg (by simp), if_neg (by simp; omega), if_neg (by simp),
    if_neg (by omega)]
  rfl

/-- **A key that the scan accepts** is the key of a stored row. -/
theorem checkKey_eq_ok (h : PostingsConsistent db) {key : List UInt8} {d : PostingDefinition}
    {t : DurableTable} :
    db.checkKey version generation ⟨db.durableTables, db.postings⟩ key = .ok (d, t) ↔
      ∃ table row, t = table.durable ∧ generation.Stores db table row ∧
        Posted db version table row d key := by
  constructor
  · intro hcheck
    obtain ⟨_, -, hcheck⟩ := of_bind hcheck
    split at hcheck
    · cases hcheck
    · rename_i d' hd'
      obtain ⟨hdeclared, -⟩ := (postingDefinition_eq_some h).mp hd'
      obtain ⟨-, hcheck⟩ := of_refused hcheck
      split at hcheck
      · cases hcheck
      · rename_i t' ht'
        obtain ⟨table, htable, howner, rfl⟩ := (postingTable_eq_some h db.postings).mp ht'
        split at hcheck
        · cases hcheck
        · rename_i bytes hbytes
          obtain ⟨row, hrow, hcheck⟩ := of_bind hcheck
          obtain ⟨hholds, hid⟩ := (decodeSourceRow_eq_ok h htable).mp hrow
          obtain ⟨expected, hexpected, hcheck⟩ := of_bind hcheck
          cases expected with
          | none => cases hcheck
          | some expected =>
            dsimp only at hcheck
            obtain ⟨hsame, hcheck⟩ := of_refused hcheck
            cases hcheck
            refine ⟨table, row, rfl, ⟨bytes, ?_, hholds⟩, hdeclared, howner.symm, ?_⟩
            · rw [Table.rowKeyOf, ← hid]
              exact hbytes
            · rw [not_not.mp hsame]
              exact hexpected
  · rintro ⟨table, row, rfl, ⟨bytes, hbytes, hholds⟩, hp⟩
    have htable := hholds.known
    obtain ⟨-, -, tuple, -, -, -, hlen, ⟨hpos, hcount⟩, hkey⟩ := hp.exists_tuple h htable
    have hdefinition := (postingDefinition_eq_some h).mpr ⟨hp.declared, rfl⟩
    have hfound := (postingTable_eq_some h db.postings).mpr ⟨table, htable, hp.owned.symm, rfl⟩
    have hrow := (decodeSourceRow_eq_ok h htable).mpr ⟨hholds, rfl⟩
    have hexpected := hp.key_eq
    have hparts : keyIndexId key = d.id ∧ keyComponentCount key = d.componentCount ∧
        keyRowId key = UInt64.ofNat row.id ∧ validateIndexKey key version.number = .ok () := by
      rw [hkey]
      refine ⟨keyIndexId_completeKey, keyComponentCount_completeKey ?_, keyRowId_completeKey,
        validateIndexKey_completeKey hpos hcount hlen⟩
      simp only [MAX_INDEX_COMPONENTS] at hcount
      omega
    obtain ⟨hid, hcomponents, hrowId, hvalid⟩ := hparts
    have hbytes' : generation.rows[encodeRowKey table.durable.id (UInt64.ofNat row.id)]? =
        some bytes := hbytes
    have hrow' : db.decodeSourceRow table.durable.name (UInt64.ofNat row.id) bytes = .ok row := hrow
    simp only [checkKey, hvalid, ok_bind, hid, hdefinition, hcomponents, ne_eq,
      not_true_eq_false, if_false, hfound, hrowId, hbytes', hrow', hexpected]
    rfl

/-- What two keys of a unique index must not share. -/
def uniqueGroup (db : Database) (version : IndexKeyVersion) (generation : Generation)
    (catalog : PostingCatalog) (key : List UInt8) : Option (List UInt8) :=
  match db.checkKey version generation catalog key with
  | .ok (definition, table) => if definition.isUnique table then some (keyTuple key) else none
  | .error _ => none

theorem checkEntry_eq_ok (previous : Option (List UInt8)) (n : ℕ) (key : List UInt8)
    (s' : Option (List UInt8) × ℕ) :
    db.checkEntry version generation catalog (previous, n) key = .ok s' ↔
      (∃ found, db.checkKey version generation catalog key = .ok found) ∧
        (∀ g, previous = some g → uniqueGroup db version generation catalog key ≠ some g) ∧
        s' = (uniqueGroup db version generation catalog key, n + 1) := by
  unfold checkEntry uniqueGroup
  cases db.checkKey version generation catalog key with
  | error e => simp
  | ok found =>
    obtain ⟨definition, table⟩ := found
    simp only [ok_bind, Except.ok.injEq, exists_eq', true_and]
    cases definition.isUnique table with
    | false => simp [eq_comm]
    | true =>
      by_cases hprevious : previous = some (keyTuple key)
      · simp [hprevious, storageFails, fail]
      · simp only [hprevious, decide_false, Bool.and_false, Bool.false_eq_true, if_false, if_true,
          pure_eq_ok, Except.ok.injEq]
        constructor
        · rintro rfl
          refine ⟨fun g hg hsame => hprevious ?_, rfl⟩
          rw [hg, ← hsame]
        · rintro ⟨-, rfl⟩
          rfl

/-- The scan of the keys succeeds when every key is that of a stored row and no two
neighbours share a unique key; it counts the keys. -/
theorem scanKeys_eq_ok {s' : Option (List UInt8) × ℕ} :
    generation.indexes.toList.foldlM (db.checkEntry version generation catalog) (none, 0) = .ok s' →
      (∀ key ∈ generation.indexes.toList,
        ∃ found, db.checkKey version generation catalog key = .ok found) ∧
      generation.indexes.toList.IsChain (Apart (uniqueGroup db version generation catalog)) ∧
      s'.2 = generation.indexes.toList.length := by
  intro hscan
  obtain ⟨hright, hchain, rfl⟩ := (foldlM_adjacent_eq_ok_iff checkEntry_eq_ok).mp hscan
  exact ⟨hright, hchain, Nat.zero_add _⟩

theorem scanKeys_of_right (hright : ∀ key ∈ generation.indexes.toList,
      ∃ found, db.checkKey version generation catalog key = .ok found)
    (hchain : generation.indexes.toList.IsChain
      (Apart (uniqueGroup db version generation catalog))) :
    ∃ group, generation.indexes.toList.foldlM (db.checkEntry version generation catalog) (none, 0) =
      .ok (group, generation.indexes.toList.length) :=
  ⟨_, (foldlM_adjacent_eq_ok_iff checkEntry_eq_ok).mpr ⟨hright, hchain, by rw [Nat.zero_add]⟩⟩

theorem uniqueGroup_eq_some (h : PostingsConsistent db) {key g : List UInt8} :
    uniqueGroup db version generation ⟨db.durableTables, db.postings⟩ key = some g ↔
      ∃ table row definition, generation.Stores db table row ∧
        Posted db version table row definition key ∧ definition.isUnique table.durable = true ∧
        g = keyTuple key := by
  unfold uniqueGroup
  constructor
  · intro hgroup
    split at hgroup
    · rename_i definition t hcheck
      obtain ⟨table, row, rfl, hstores, hp⟩ := (checkKey_eq_ok h).mp hcheck
      split at hgroup
      · rename_i hunique
        cases hgroup
        exact ⟨table, row, definition, hstores, hp, hunique, rfl⟩
      · cases hgroup
    · cases hgroup
  · rintro ⟨table, row, definition, hstores, hp, hunique, rfl⟩
    rw [(checkKey_eq_ok h).mpr ⟨table, row, rfl, hstores, hp⟩]
    exact if_pos hunique

/-- The keys that share a tuple of a unique index lie next to each other. -/
theorem uniqueGroup_contiguous (h : PostingsConsistent db)
    (hright : ∀ key ∈ generation.indexes.toList, ∃ found,
      db.checkKey version generation ⟨db.durableTables, db.postings⟩ key = .ok found)
    (a b c g : List UInt8) (hsub : [a, b, c].Sublist generation.indexes.toList)
    (ha : uniqueGroup db version generation ⟨db.durableTables, db.postings⟩ a = some g)
    (hc : uniqueGroup db version generation ⟨db.durableTables, db.postings⟩ c = some g) :
    uniqueGroup db version generation ⟨db.durableTables, db.postings⟩ b = some g := by
  have hordered := (ExtTreeSet.ordered_toList (t := generation.indexes)).sublist hsub
  have hab : compare a b = .lt := by simp_all
  have hbc : compare b c = .lt := by simp_all
  obtain ⟨table, row, d, hstores, hp, hunique, rfl⟩ := (uniqueGroup_eq_some h).mp ha
  obtain ⟨table', row', d', hstores', hp', -, hg⟩ := (uniqueGroup_eq_some h).mp hc
  have ht := hstores.choose_spec.2.known
  obtain ⟨values, shape, tuple, hvalues, hshape, htuple, -, -, hkey⟩ := hp.exists_tuple h ht
  obtain ⟨-, -, tuple', -, -, -, -, -, hkey'⟩ := hp'.exists_tuple h hstores'.choose_spec.2.known
  have hstart : keyTuple a <+: b := by
    have haparts : keyTuple a ++ beBytes 8 (keyRowId a).toNat = a := by
      rw [hkey]
      exact keyTuple_append_keyRowId
    have hcparts : keyTuple a ++ beBytes 8 (keyRowId c).toNat = c := by
      rw [hg, hkey']
      exact keyTuple_append_keyRowId
    refine prefix_of_between (x := beBytes 8 (keyRowId a).toNat)
      (y := beBytes 8 (keyRowId c).toNat) ?_ ?_
    · rw [haparts, hab]
      simp
    · rw [hcparts, hbc]
      simp
  obtain ⟨⟨d'', t''⟩, hcheck⟩ := hright b (hsub.subset (by simp))
  obtain ⟨table'', row'', rfl, hstores'', hp''⟩ := (checkKey_eq_ok h).mp hcheck
  have ht'' := hstores''.choose_spec.2.known
  have htupleA : keyTuple a =
      durableIndexPrefixVersion d.id (UInt8.ofNat d.componentCount) version.number ++ tuple := by
    rw [hkey, keyTuple_completeKey]
  rw [htupleA] at hstart
  obtain ⟨rfl, hsame⟩ := hp''.keyTuple_eq_of_prefix h ht ht'' hp.declared hp.owned
    (PostingDefinition.length_values hvalues) hshape htuple hstart
  obtain rfl := h.table_eq_of_id_eq ht ht'' (hp.owned.symm.trans hp''.owned)
  exact (uniqueGroup_eq_some h).mpr
    ⟨_, row'', _, hstores'', hp'', hunique, htupleA.trans hsame.symm⟩

/-- Two keys of one tuple of a unique index belong to one definition. -/
theorem eq_of_uniqueGroup_eq (h : PostingsConsistent db) {a b g : List UInt8}
    (ha : uniqueGroup db version generation ⟨db.durableTables, db.postings⟩ a = some g)
    (hb : uniqueGroup db version generation ⟨db.durableTables, db.postings⟩ b = some g)
    (hunique : ∀ table row row' definition key key', generation.Stores db table row →
      generation.Stores db table row' → definition.isUnique table.durable = true →
      Posted db version table row definition key → Posted db version table row' definition key' →
      keyTuple key = keyTuple key' → row.id = row'.id) : a = b := by
  obtain ⟨table, row, d, hstores, hp, hu, rfl⟩ := (uniqueGroup_eq_some h).mp ha
  obtain ⟨table', row', d', hstores', hp', -, hsame⟩ := (uniqueGroup_eq_some h).mp hb
  have ht := hstores.choose_spec.2.known
  have ht' := hstores'.choose_spec.2.known
  obtain ⟨values, shape, tuple, hvalues, hshape, htuple, -, -, hkey⟩ := hp.exists_tuple h ht
  obtain ⟨-, -, tuple', -, -, -, -, -, hkey'⟩ := hp'.exists_tuple h ht'
  have hstart : durableIndexPrefixVersion d.id (UInt8.ofNat d.componentCount) version.number ++
      tuple <+: b := by
    rw [hkey, keyTuple_completeKey] at hsame
    rw [hsame]
    exact take_prefix _ _
  obtain ⟨rfl, -⟩ := hp'.keyTuple_eq_of_prefix h ht ht' hp.declared hp.owned
    (PostingDefinition.length_values hvalues) hshape htuple hstart
  obtain rfl := h.table_eq_of_id_eq ht ht' (hp.owned.symm.trans hp'.owned)
  have hid := hunique _ row row' _ a b hstores hstores' hu hp hp' hsame
  have hrowId : keyRowId a = keyRowId b := by
    rw [hkey, hkey', keyRowId_completeKey, keyRowId_completeKey, hid]
  calc a = keyTuple a ++ beBytes 8 (keyRowId a).toNat := by
        rw [hkey]
        exact keyTuple_append_keyRowId.symm
    _ = keyTuple b ++ beBytes 8 (keyRowId b).toNat := by rw [hsame, hrowId]
    _ = b := by
        rw [hkey']
        exact keyTuple_append_keyRowId

end Entries

/-! ## The count -/

section Count
variable {db : Database} {version : IndexKeyVersion} {generation : Generation}

theorem mem_byTable {id : UInt64} {d : PostingDefinition} :
    d ∈ PostingCatalog.byTable ⟨db.durableTables, db.postings⟩ id ↔
      d ∈ db.postings ∧ d.tableId = id := by
  simp [PostingCatalog.byTable]

theorem keyOf_eq_some {t : DurableTable} {row : Row} {d : PostingDefinition} {key : List UInt8} :
    keyOf db version t row d = some key ↔ db.expectedKey version t row d = .ok (some key) := by
  unfold keyOf
  cases db.expectedKey version t row d <;> simp

theorem mem_entryKeys (h : PostingsConsistent db) {entry : List UInt8 × List UInt8}
    {key : List UInt8} : key ∈ entryKeys db version ⟨db.durableTables, db.postings⟩ entry ↔
      ∃ table row definition, HoldsRow db table row entry.2 ∧ entry.1 = table.rowKeyOf row ∧
        Posted db version table row definition key := by
  unfold entryKeys
  constructor
  · intro hmem
    split at hmem
    · rename_i t row hread
      obtain ⟨table, rfl, hholds, hkey⟩ := (readEntry_eq_ok h).mp hread
      obtain ⟨d, hd, hmem⟩ := mem_flatMap.mp hmem
      obtain ⟨hdeclared, howned⟩ := mem_byTable.mp hd
      rw [Option.mem_toList, keyOf_eq_some] at hmem
      exact ⟨table, row, d, hholds, hkey, hdeclared, howned, hmem⟩
    · cases hmem
  · rintro ⟨table, row, d, hholds, hkey, hp⟩
    rw [(readEntry_eq_ok h).mpr ⟨table, rfl, hholds, hkey⟩]
    refine mem_flatMap.mpr ⟨d, mem_byTable.mpr ⟨hp.declared, hp.owned⟩, ?_⟩
    rw [Option.mem_toList, keyOf_eq_some]
    exact hp.key_eq

/-- One row has no key twice. -/
theorem nodup_entryKeys (h : PostingsConsistent db) (entry : List UInt8 × List UInt8) :
    (entryKeys db version ⟨db.durableTables, db.postings⟩ entry).Nodup := by
  unfold entryKeys
  split
  · rename_i t row hread
    obtain ⟨table, rfl, hholds, -⟩ := (readEntry_eq_ok h).mp hread
    have hnodup : (PostingCatalog.byTable ⟨db.durableTables, db.postings⟩ table.id).Nodup :=
      (List.Nodup.of_map _ h.distinct).filter _
    refine nodup_flatMap.mpr ⟨fun d _ => ?_, ?_⟩
    · cases keyOf db version table.durable row d <;> simp
    · refine hnodup.imp_of_mem ?_
      intro d d' hd hd' hne key hkey hkey'
      obtain ⟨hdeclared, howned⟩ := mem_byTable.mp hd
      obtain ⟨hdeclared', howned'⟩ := mem_byTable.mp hd'
      rw [Option.mem_toList, keyOf_eq_some] at hkey hkey'
      have hp : Posted db version table row d key := ⟨hdeclared, howned, hkey⟩
      have hp' : Posted db version table row d' key := ⟨hdeclared', howned', hkey'⟩
      exact hne (hp.eq_of_key_eq h hholds.known hholds.known hholds.word hholds.word hp').1
  · exact nodup_nil

/-- No key is required twice. -/
theorem nodup_requiredKeys (h : PostingsConsistent db) : (generation.rows.toList.flatMap
      (entryKeys db version ⟨db.durableTables, db.postings⟩)).Nodup := by
  refine nodup_flatMap.mpr ⟨fun entry _ => nodup_entryKeys h entry, ?_⟩
  refine (ExtTreeMap.distinct_keys_toList (t := generation.rows)).imp ?_
  intro entry entry' hne key hkey hkey'
  obtain ⟨table, row, d, hholds, hentry, hp⟩ := (mem_entryKeys h).mp hkey
  obtain ⟨table', row', d', hholds', hentry', hp'⟩ := (mem_entryKeys h).mp hkey'
  obtain ⟨-, rfl, hid⟩ :=
    hp.eq_of_key_eq h hholds.known hholds'.known hholds.word hholds'.word hp'
  refine hne ?_
  rw [hentry, hentry', Table.rowKeyOf, Table.rowKeyOf, hid]
  exact ReflOrd.compare_self

/-- The number of index keys is the number of keys that the rows require. -/
theorem length_requiredKeys (h : PostingsConsistent db)
    (hagrees : ∀ key, key ∈ generation.indexes ↔ ∃ table row definition,
      generation.Stores db table row ∧ Posted db version table row definition key) :
    generation.indexes.toList.length = (generation.rows.toList.flatMap
      (entryKeys db version ⟨db.durableTables, db.postings⟩)).length := by
  have hsorted := ExtTreeSet.ordered_toList (t := generation.indexes)
  have hnodup : generation.indexes.toList.Nodup := by
    refine hsorted.imp ?_
    rintro a b hab rfl
    simp at hab
  refine ((perm_ext_iff_of_nodup hnodup (nodup_requiredKeys h)).mpr fun key => ?_).length_eq
  rw [ExtTreeSet.mem_toList, hagrees, mem_flatMap]
  constructor
  · rintro ⟨table, row, d, ⟨bytes, hbytes, hholds⟩, hp⟩
    exact ⟨(table.rowKeyOf row, bytes),
      ExtTreeMap.mem_toList_iff_getElem?_eq_some.mpr hbytes,
      (mem_entryKeys h).mpr ⟨table, row, d, hholds, rfl, hp⟩⟩
  · rintro ⟨⟨entryKey, bytes⟩, hentry, hkey⟩
    obtain ⟨table, row, d, hholds, rfl, hp⟩ := (mem_entryKeys h).mp hkey
    exact ⟨table, row, d, ⟨bytes, ExtTreeMap.mem_toList_iff_getElem?_eq_some.mp hentry, hholds⟩, hp⟩

end Count

/-! ## Soundness and completeness -/

section Main
variable {db : Database} {version : IndexKeyVersion} {generation : Generation} {missing : Error}

/-- What the scan of the rows has seen of a stored row. -/
theorem postingRight_of_stores (h : PostingsConsistent db)
    (hentries : ∀ entry ∈ generation.rows.toList,
      EntryRight db version generation missing ⟨db.durableTables, db.postings⟩ entry)
    {table : Table} {row : Row} (hstores : generation.Stores db table row)
    {d : PostingDefinition} (hd : d ∈ db.postings) (hid : d.tableId = table.id) :
    PostingRight db version generation missing table.durable row d := by
  obtain ⟨bytes, hbytes, hholds⟩ := hstores
  obtain ⟨t, row', hread, hpostings⟩ := hentries _
    (ExtTreeMap.mem_toList_iff_getElem?_eq_some.mpr hbytes)
  rw [(readEntry_eq_ok h).mpr ⟨table, rfl, hholds, rfl⟩] at hread
  cases hread
  exact hpostings d (mem_byTable.mpr ⟨hd, hid⟩)

theorem posted_of_sourceKey {table : Table} {row : Row} {reference : ReferenceDefinition}
    (hmem : .reference reference ∈ db.postings) (hid : reference.tableId = table.id)
    {key : Option (List UInt8)}
    (hkey : db.expectedKey version table.durable row (.reference reference) = .ok key)
    {k : List UInt8} (hk : reference.sourceKey db.catalog row = .ok (some k)) :
    ∃ key, Posted db version table row (.reference reference) key := by
  cases key with
  | none =>
    rw [PostingsConsistent.expectedKey_eq_ok_none] at hkey
    obtain ⟨values, hvalues, -⟩ := ReferenceDefinition.key_eq_ok_some.mp hk
    have hnone : reference.values row.fields true = .ok none := hkey
    rw [hvalues] at hnone
    cases hnone
  | some key => exact ⟨key, hmem, hid, hkey⟩

/-- **Soundness.** A generation that passes is intact. -/
theorem intact_of_scans (h : PostingsConsistent db) (hentries : ∀ entry ∈ generation.rows.toList,
      EntryRight db version generation missing ⟨db.durableTables, db.postings⟩ entry)
    (hkeys : ∀ key ∈ generation.indexes.toList, ∃ found,
      db.checkKey version generation ⟨db.durableTables, db.postings⟩ key = .ok found)
    (hchain : generation.indexes.toList.IsChain
      (Apart (uniqueGroup db version generation ⟨db.durableTables, db.postings⟩))) :
    Intact db version generation := by
  have hkeyed : ∀ table row, generation.Stores db table row → ∀ d ∈ db.postings,
      d.tableId = table.id → ∃ key, db.expectedKey version table.durable row d = .ok key := by
    intro table row hstores d hd hid
    obtain ⟨key, hkey, -⟩ := postingRight_of_stores h hentries hstores hd hid
    exact ⟨key, hkey⟩
  have hposted : ∀ table row d key, generation.Stores db table row →
      Posted db version table row d key → key ∈ generation.indexes ∧
        db.requireTarget version generation missing row d = .ok () := by
    intro table row d key hstores hp
    obtain ⟨key', hkey', hright⟩ := postingRight_of_stores h hentries hstores hp.declared hp.owned
    rw [hp.key_eq] at hkey'
    cases hkey'
    exact hright key rfl
  have hagrees : ∀ key, key ∈ generation.indexes ↔ ∃ table row d,
      generation.Stores db table row ∧ Posted db version table row d key := by
    intro key
    constructor
    · intro hmem
      obtain ⟨⟨d, t⟩, hcheck⟩ := hkeys key (ExtTreeSet.mem_toList.mpr hmem)
      obtain ⟨table, row, rfl, hstores, hp⟩ := (checkKey_eq_ok h).mp hcheck
      exact ⟨table, row, d, hstores, hp⟩
    · rintro ⟨table, row, d, hstores, hp⟩
      exact (hposted table row d key hstores hp).1
  have hapart := (isChain_iff_pairwise_of_contiguous (uniqueGroup_contiguous h hkeys)).mp hchain
  refine ⟨?_, hkeyed, hagrees, ?_, ?_⟩
  · intro key bytes hbytes
    obtain ⟨t, row, hread, -⟩ := hentries (key, bytes)
      (ExtTreeMap.mem_toList_iff_getElem?_eq_some.mpr hbytes)
    obtain ⟨table, -, hholds, hkey⟩ := (readEntry_eq_ok h).mp hread
    exact ⟨table, row, hholds, hkey⟩
  · intro table row row' d key key' hstores hstores' hunique hp hp' hsame
    by_cases hne : key = key'
    · subst hne
      obtain ⟨bytes, -, hholds⟩ := hstores
      obtain ⟨bytes', -, hholds'⟩ := hstores'
      exact (hp.eq_of_key_eq h hholds.known hholds'.known hholds.word hholds'.word hp').2.2
    · have hmem := ExtTreeSet.mem_toList.mpr (hposted table row d key hstores hp).1
      have hmem' := ExtTreeSet.mem_toList.mpr (hposted table row' d key' hstores' hp').1
      exact absurd ((uniqueGroup_eq_some h).mpr ⟨table, row', d, hstores', hp', hunique, hsame⟩)
        (hapart.forall hmem hmem' hne _
          ((uniqueGroup_eq_some h).mpr ⟨table, row, d, hstores, hp, hunique, rfl⟩))
  · intro table row hstores reference hreference hid k hk
    have hdeclared := reference_mem_postings.mpr hreference
    obtain ⟨_, hkey⟩ := hkeyed table row hstores _ hdeclared hid
    obtain ⟨key, hp⟩ := posted_of_sourceKey hdeclared hid hkey hk
    have ht := hstores.choose_spec.2.known
    exact (checkTarget_eq_ok h hkeyed hagrees ht hp missing).mp
      (hposted table row _ key hstores hp).2 k hk

/-- **Completeness.** An intact generation passes both scans. -/
theorem Intact.scans (hintact : Intact db version generation) (h : PostingsConsistent db)
    (missing : Error) : (∀ entry ∈ generation.rows.toList,
      EntryRight db version generation missing ⟨db.durableTables, db.postings⟩ entry) ∧
    (∀ key ∈ generation.indexes.toList, ∃ found,
      db.checkKey version generation ⟨db.durableTables, db.postings⟩ key = .ok found) ∧
    generation.indexes.toList.IsChain
      (Apart (uniqueGroup db version generation ⟨db.durableTables, db.postings⟩)) := by
  refine ⟨?_, ?_, ?_⟩
  · rintro ⟨entryKey, bytes⟩ hentry
    have hbytes := ExtTreeMap.mem_toList_iff_getElem?_eq_some.mp hentry
    obtain ⟨table, row, hholds, rfl⟩ := hintact.rows entryKey bytes hbytes
    have hstores : generation.Stores db table row := ⟨bytes, hbytes, hholds⟩
    refine ⟨table.durable, row, (readEntry_eq_ok h).mpr ⟨table, rfl, hholds, rfl⟩, ?_⟩
    intro d hd
    obtain ⟨hdeclared, howned⟩ := mem_byTable.mp hd
    obtain ⟨key, hkey⟩ := hintact.keyed table row hstores d hdeclared howned
    refine ⟨key, hkey, ?_⟩
    rintro k rfl
    have hp : Posted db version table row d k := ⟨hdeclared, howned, hkey⟩
    refine ⟨(hintact.agrees k).mpr ⟨table, row, d, hstores, hp⟩, ?_⟩
    cases d with
    | index d => rfl
    | reference d =>
      exact (checkTarget_eq_ok h hintact.keyed hintact.agrees hholds.known hp missing).mpr
        (hintact.targets table row hstores d (reference_mem_postings.mp hdeclared) howned)
  · intro key hmem
    obtain ⟨table, row, d, hstores, hp⟩ := (hintact.agrees key).mp (ExtTreeSet.mem_toList.mp hmem)
    exact ⟨(d, table.durable), (checkKey_eq_ok h).mpr ⟨table, row, rfl, hstores, hp⟩⟩
  · refine List.Pairwise.isChain ?_
    refine (ExtTreeSet.ordered_toList (t := generation.indexes)).imp ?_
    intro a b hab g ha hb
    rw [eq_of_uniqueGroup_eq h ha hb hintact.unique] at hab
    simp at hab

end Main

/-! ### One row -/

/-- The table of texts after one insert. -/
def filledTable : Table := { textTable with nextRowId := 1 }

def filledDatabase : Database :=
  { selfReferenced with objects := (∅ : ExtTreeMap String Table).insert "t" filledTable }

theorem filledDatabase_entries : filledDatabase.durableCatalogEntries =
      [.table filledTable.durable, .index "t" textIndex, .reference selfReference] := by
  have hsorted : List.Pairwise
      (fun a b : DurableCatalogEntry => decide (a.stableId ≤ b.stableId) = true)
      [.table filledTable.durable, .index "t" textIndex, .reference selfReference] := by decide
  exact mergeSort_of_pairwise hsorted

theorem filledDatabase_consistent : PostingsConsistent filledDatabase where
  tables := by
    refine ⟨fun name table h => ?_, fun a b s t ha hb _ => ?_⟩
    · obtain ⟨rfl, rfl⟩ := getElem?_singleton.mp h
      rfl
    · exact (getElem?_singleton.mp ha).1.symm.trans (getElem?_singleton.mp hb).1
  wellFormed := Catalog.Produced.empty.sound.wellFormed
  uniqueIds := Catalog.Produced.empty.sound.uniqueIds
  rowTypes := by
    intro table htable
    obtain rfl := mem_valuesOf_singleton.mp htable
    exact Catalog.bound_record (by decide) (by decide) fun c hc => by
      obtain rfl := mem_singleton.mp hc
      exact Catalog.bound_leaf .text trivial rfl
  indexed := by
    intro name d hd
    obtain ⟨shape, hd⟩ := mem_valuesOf.mp hd
    by_cases hname : "t" = name
    · subst hname
      rw [show filledDatabase.definitions "t" =
        (∅ : ExtTreeMap String IndexDefinition).insert "id" textIndex from rfl] at hd
      obtain ⟨rfl, rfl⟩ := getElem?_singleton.mp hd
      exact ⟨filledTable, rfl, rfl⟩
    · have hnone : filledDatabase.indexDefinitions[name]? = none := by
        simp [filledDatabase, selfReferenced, hname]
      simp [definitions, hnone] at hd
  distinct := by
    rw [postings, filledDatabase_entries]
    decide
  listed := by
    intro id d h
    obtain ⟨rfl, rfl⟩ := getElem?_singleton.mp h
    rfl
  sourced := by
    intro d hd
    obtain rfl := mem_valuesOf_singleton.mp hd
    exact ⟨filledTable, mem_valuesOf_singleton.mpr rfl, rfl⟩
  bound := by
    intro d hd
    obtain rfl := mem_valuesOf_singleton.mp hd
    exact ⟨filledTable, textIndex, rfl, rfl, rfl, by simp [selfReference]; rfl, rfl⟩

/-- The row with the text `a`, under the index of its key and its reference to itself. -/
def filledGeneration : Generation where
  rows := (∅ : ExtTreeMap (List UInt8) (List UInt8)).insert (encodeRowKey 1 0)
    ([0x55, 0x49, 0x44, 0x56, 0, 3] ++ beBytes 4 1 ++ beBytes 8 2 ++ beBytes 4 1 ++ [0x61])
  indexes := ((∅ : ExtTreeSet (List UInt8)).insert (completeKey 4 3 1 [0x61, 0, 0] 0)).insert
    (completeKey 4 4 1 [0x61, 0, 0] 0)

theorem filledGeneration_passes :
    filledDatabase.validateBoundedIntegrity .map filledGeneration missingTarget = .ok 2 := by
  unfold validateBoundedIntegrity postingCatalog durableTables
  rw [filledDatabase_entries]
  rfl

end UnionId
