import UnionId.Codec
import UnionId.Db.Reference
import UnionId.Model.Define
import UnionId.Query.Bind

/-!
# Loading durable state

A durable database is a list of catalog entries, a list of encoded rows and a header.
Loading sorts the entries into the catalog, decodes the rows by the types of their
tables, and rebuilds what is derived: missing index definitions, all postings and the
reverse postings of references.
-/
namespace UnionId

open Lib Std

/-! ## Durable data -/

structure DurableMeta where
  sequence : UInt64
  schemaRevision : UInt64
  nextCatalogId : UInt64
  schemaHash : String

structure DurableTable where
  id : UInt64
  name : String
  schema : List Column
  rowType : Option UInt64
  primaryKey : Option String
  nextRowId : RowId
  generatedDefaults : ExtTreeMap UInt64 BoundGeneratedDefault

/-- The table before its rows are read. -/
def DurableTable.empty (table : DurableTable) : Table where
  id := table.id
  name := table.name
  schema := table.schema
  rows := []
  nextRowId := table.nextRowId
  rowType := table.rowType
  primaryKey := table.primaryKey
  generatedDefaults := table.generatedDefaults

inductive DurableCatalogEntry where
  | sequence (sequence : Sequence)
  | reference (definition : ReferenceDefinition)
  | type (definition : TypeDefinition)
  | table (table : DurableTable)
  | index (table : String) (definition : IndexDefinition)

def DurableCatalogEntry.stableId : DurableCatalogEntry → UInt64
  | .sequence s => s.id
  | .reference d => d.id
  | .type d => d.id
  | .table t => t.id
  | .index _ d => d.id

/-- What the loader reads of a migration. -/
structure MigrationEntry where
  schemaRevision : UInt64
  schemaHash : String

/-- A row as it is stored: its table, its identity and its bytes. -/
structure DurableRow where
  tableId : UInt64
  rowId : RowId
  bytes : List UInt8

/-- A loaded database, with the counters the engine keeps beside it. -/
structure LoadedDatabase where
  database : Database
  sequence : UInt64
  schemaRevision : UInt64
  migrationHistory : List MigrationEntry

/-- Digests and encodings the loader takes from other crates, and the check of the
migration ledger. Nothing is assumed about them. -/
class DurableExternal extends External where
  schemaHash : Database → String
  referenceJson : ExtTreeMap UInt64 ReferenceDefinition → List UInt8
  validateHistory : List MigrationEntry → Result Unit

def storageFails {α : Type} (message : Message) : Result α := fail .E_STORAGE message

/-! ## Catalog entries -/

/-- The entries seen so far. -/
structure CatalogEntries where
  ids : ExtTreeSet UInt64
  maxId : UInt64
  types : ExtTreeMap String TypeDefinition
  objects : ExtTreeMap String Table
  indexDefinitions : ExtTreeMap String (ExtTreeMap String IndexDefinition)
  referenceDefinitions : ExtTreeMap UInt64 ReferenceDefinition
  sequences : ExtTreeMap String Sequence

namespace CatalogEntries

def empty : CatalogEntries := ⟨∅, 0, ∅, ∅, ∅, ∅, ∅⟩

def addSequence (s : CatalogEntries) (sequence : Sequence) : Result CatalogEntries :=
  if sequence.name ∈ s.sequences then storageFails "duplicate durable sequence name"
  else pure { s with sequences := s.sequences.insert sequence.name sequence }

def addType (s : CatalogEntries) (definition : TypeDefinition) : Result CatalogEntries :=
  if definition.name ∈ s.types then storageFails "duplicate durable type name"
  else pure { s with types := s.types.insert definition.name definition }

def addTable (s : CatalogEntries) (table : DurableTable) : Result CatalogEntries :=
  if table.name ∈ s.objects ∨ table.name ∈ s.types then
    storageFails ("duplicate durable schema name '" ++ table.name ++ "'" : String)
  else
    pure { s with objects := s.objects.insert table.name table.empty }

def addIndex [External] (s : CatalogEntries) (table : String) (definition : IndexDefinition) :
    Result CatalogEntries :=
  let definitions := s.indexDefinitions[table]?.getD ∅
  if definition.shapeKey ∈ definitions then storageFails "duplicate durable index definition"
  else pure { s with indexDefinitions :=
    s.indexDefinitions.insert table (definitions.insert definition.shapeKey definition) }

/-- Identities are positive and never repeat. -/
def claimId (s : CatalogEntries) (id : UInt64) : Result CatalogEntries :=
  if id = 0 ∨ id ∈ s.ids then
    storageFails ("invalid or duplicate catalog ID " ++ toString id : String)
  else pure { s with ids := s.ids.insert id, maxId := max s.maxId id }

def addEntry [External] (s : CatalogEntries) (entry : DurableCatalogEntry) :
    Result CatalogEntries := do
  let s ← s.claimId entry.stableId
  match entry with
  | .sequence sequence => s.addSequence sequence
  | .reference definition =>
    pure { s with
      referenceDefinitions := s.referenceDefinitions.insert definition.id definition }
  | .type definition => s.addType definition
  | .table table => s.addTable table
  | .index table definition => s.addIndex table definition

/-- Every index belongs to the table it names. -/
def checkIndexTables (s : CatalogEntries) : Result Unit :=
  s.indexDefinitions.toList.forM fun (name, definitions) =>
    match s.objects[name]? with
    | none => storageFails ("index references unknown table '" ++ name ++ "'" : String)
    | some table => (valuesOf definitions).forM fun definition =>
      if definition.tableId ≠ table.id then
        storageFails ("index '" ++ IndexDefinition.joinComponents ", "
          definition.effectiveComponents ++
          "' has the wrong table ID" : String)
      else pure ()

end CatalogEntries

/-! ## Rows -/

def Table.rowScalarType (table : Table) : ScalarType :=
  match table.rowType with
  | some id => .ref id
  | none => .record table.schema

/-- Rows in the order of tables and identities. -/
def sortRows (rows : List DurableRow) : List DurableRow :=
  rows.insertionSort fun a b => a.tableId < b.tableId ∨ a.tableId = b.tableId ∧ a.rowId ≤ b.rowId

/-- The decoded rows of each table, and the last identity of each. -/
structure DecodedRows where
  rows : ExtTreeMap String (List Row)
  previous : ExtTreeMap UInt64 RowId

def decodeFields (catalog : Catalog) (table : Table) (bytes : List UInt8) : Result Fields := do
  let value ← Codec.decodeValue catalog table.rowScalarType bytes
  match value.unwrapped with
  | .record fields => pure fields
  | _ => storageFails "durable row is not a record"

def decodeRow (catalog : Catalog) (objects : ExtTreeMap String Table) (decoded : DecodedRows)
    (row : DurableRow) : Result DecodedRows :=
  match objects.toList.find? fun object => object.2.id = row.tableId with
  | none => storageFails ("row references unknown table ID " ++ toString row.tableId : String)
  | some (name, table) =>
    if decoded.previous[row.tableId]?.any fun previous => row.rowId ≤ previous then
      storageFails ("table '" ++ name ++ "' has duplicate or unordered row IDs" : String)
    else do
      let fields ← decodeFields catalog table row.bytes
      let rows := decoded.rows[name]?.getD []
      pure { rows := decoded.rows.insert name (rows ++ [⟨row.rowId, fields⟩]),
             previous := decoded.previous.insert row.tableId row.rowId }

/-- A counter that stops at the largest 64-bit value. -/
def saturatingSucc (id : RowId) : RowId := min (id + 1) (U64_LIMIT - 1)

/-- The cursor behind the last row. -/
def inferredNext (rows : List Row) : RowId :=
  match rows.getLast? with
  | some row => saturatingSucc row.id
  | none => 0

/-- Give a table its rows. Catalogs from before stable identities have no cursor. -/
def attachRows (objects : ExtTreeMap String Table) (name : String) (rows : List Row) :
    Result (ExtTreeMap String Table) :=
  match objects[name]? with
  | none => fail .E_INTERNAL "decoded rows of an unknown table"
  | some table =>
    if table.nextRowId = 0 then
      pure (objects.insert name { table with rows, nextRowId := inferredNext rows })
    else if table.nextRowId < inferredNext rows then
      storageFails ("table '" ++ name ++ "' has a row ID beyond its allocation cursor" : String)
    else pure (objects.insert name { table with rows })

def attachAll (objects : ExtTreeMap String Table) (decoded : ExtTreeMap String (List Row)) :
    Result (ExtTreeMap String Table) :=
  decoded.toList.foldlM (fun objects (name, rows) => attachRows objects name rows) objects

/-! ## Generated defaults -/

namespace Database

def checkSequence (db : Database) (name : String) (sequence : Sequence) : Result Unit :=
  if name ≠ sequence.name ∨ name ∈ db.objects ∨ name ∈ db.catalog.types then
    storageFails "sequence name conflicts with its catalog binding"
  else if sequence.next.any fun next => next < sequence.start then
    storageFails "sequence counter precedes its declared start"
  else pure ()

/-- The type of the values that a generator makes. -/
def generatorType (db : Database) : BoundGeneratedDefault → Result ScalarType
  | .next id =>
    if (valuesOf db.sequences).any fun sequence => sequence.id = id then pure .int
    else storageFails "generated default references an unknown sequence"
  | .uuidV7 => pure .uuid
  | .now => pure .timestamp

def checkGenerator (db : Database) (table : Table) (fieldId : UInt64)
    (generator : BoundGeneratedDefault) : Result Unit :=
  match table.schema.find? fun column => column.id = fieldId with
  | none => storageFails "generated default references an unknown table field"
  | some column => do
    let expected ← db.generatorType generator
    let actual ← db.catalog.underlying column.ty
    if sameType actual expected then pure ()
    else storageFails "generated default result type disagrees with its field"

def validateGeneratedState (db : Database) : Result Unit := do
  db.sequences.toList.forM fun (name, sequence) => db.checkSequence name sequence
  db.schemaTables.forM fun table =>
    table.generatedDefaults.toList.forM fun (fieldId, generator) =>
      db.checkGenerator table fieldId generator

/-! ## Indexes -/

/-- Tables from before stable identities get one. -/
def repairCatalogIds (db : Database) : Result Database :=
  db.objects.toList.foldlM (fun db (name, table) =>
    if table.id = 0 then do
      let (id, catalog) ← db.catalog.allocate
      pure { db with catalog, objects := db.objects.insert name { table with id } }
    else pure db) db

/-- Number rows that have no identities of their own. -/
def renumberRows (table : Table) : Result Table :=
  if table.nextRowId = 0 ∧ table.rows ≠ [] then
    if table.rows.length ≥ U64_LIMIT then fail .E_LIMIT "row ID space exhausted"
    else pure { table with
      rows := table.rows.zipIdx.map fun (row, id) => { row with id }
      nextRowId := table.rows.length }
  else pure table

/-- Identities ascend and stay below the cursor. -/
def rowIdsValid (nextRowId : RowId) : Option RowId → List Row → Bool
  | _, [] => true
  | previous, row :: rows =>
    !(previous.any fun id => row.id ≤ id) && row.id < nextRowId &&
      rowIdsValid nextRowId (some row.id) rows

def repairTable (table : Table) : Result Table := do
  let table ← renumberRows table
  if rowIdsValid table.nextRowId none table.rows then pure table
  else storageFails ("table '" ++ table.name ++ "' has invalid stable row IDs" : String)

def repairRowIds (db : Database) : Result Database :=
  db.objects.toList.foldlM (fun db (name, table) => do
    let table ← repairTable table
    pure { db with objects := db.objects.insert name table }) db

/-- The shapes to index in a table: those posted, those defined, and the primary key. -/
def indexShapes (db : Database) (name : String) : List String :=
  let shapes := ((∅ : ExtTreeSet String).insertMany (db.tableIndexes name).keys).insertMany
    (db.definitions name).keys
  (match db.objects[name]?.bind fun table => table.primaryKey with
    | some key => shapes.insert key
    | none => shapes).toList

/-- Every index of every table, in the order of tables and shapes. -/
def indexKeys (db : Database) : List (String × String) :=
  let names := (((∅ : ExtTreeSet String).insertMany db.indexes.keys).insertMany
    db.indexDefinitions.keys).insertMany db.objects.keys
  names.toList.flatMap fun name => (db.indexShapes name).map fun shape => (name, shape)

/-- An index without a definition is an ordinary index of one column. -/
def ensureDefinition (db : Database) (name shape : String) : Result (Database × IndexDefinition) :=
  match (db.definitions name)[shape]? with
  | some definition => pure (db, definition)
  | none => do
    let table ← db.table name
    let fieldPath ← db.catalog.fieldPathIds table.schema shape
    let (id, catalog) ← db.catalog.allocate
    let definition : IndexDefinition :=
      { id, tableId := table.id, column := "", fieldPath := [],
        components := [{ column := shape, fieldPath, descending := false }],
        kind := .ordinary, predicate := none }
    pure ({ db with catalog, indexDefinitions :=
      db.indexDefinitions.insert name ((db.definitions name).insert shape definition) }, definition)

/-- Whether some key of a posting has several rows. -/
def hasDuplicate (posting : IndexPosting) : Bool :=
  (valuesOf posting).any fun ids => ids.length > 1

/-- Build one index; only a unique one refuses duplicates. -/
def rebuildIndex (db : Database) (key : String × String) : Result Database := do
  let (db, definition) ← db.ensureDefinition key.1 key.2
  let posting ← db.buildIndex key.1 definition
  if definition.isUnique && hasDuplicate posting then
    throw (violation definition.uniqueConstraintKind ("duplicate value for unique index '" ++
      (key.1 ++ " " : String) ++ definition.displayConstraint ++ "'"))
  else
    pure { db with indexes :=
      db.indexes.insert key.1 ((db.tableIndexes key.1).insert key.2 posting) }

def rebuildIndexes (db : Database) : Result Database := do
  let keys := db.indexKeys
  let db ← db.repairCatalogIds
  let db ← db.repairRowIds
  keys.foldlM rebuildIndex { db with indexes := ∅ }

/-- The check of primary keys that a migration makes. -/
def validatePrimaryKeys (db : Database) (name : String) (rows : List Row) : Result Unit := do
  let table ← db.table name
  match table.primaryKey with
  | none => pure ()
  | some key => distinctKeys name key [] rows
where distinctKeys (name key : String) : List IndexKey → List Row → Result Unit
  | _, [] => pure ()
  | seen, row :: rows =>
    match rowField row.fields key with
    | none => fail .E_FIELD ("missing primary key '" ++ name ++ "." ++ key ++ "'" : String)
    | some value =>
      if value.indexKey ∈ seen then
        throw (violation .primaryKey
          ("duplicate primary key '" ++ name ++ "." ++ key ++ "'" : String))
      else distinctKeys name key (value.indexKey :: seen) rows

end Database

/-! ## References -/

structure ReferenceSpec where
  table : String
  fields : List String
  targetTable : String
  targetFields : List String

def fieldPathName (catalog : Catalog) : List Column → List UInt64 → Option (List String)
  | _, [] => some []
  | columns, id :: ids =>
    match columns.find? fun column => column.id = id with
    | none => none
    | some column =>
      match ids with
      | [] => some [column.name]
      | _ :: _ =>
        match catalog.underlying column.ty with
        | .ok (.record nested) => (fieldPathName catalog nested ids).map (column.name :: ·)
        | _ => none

namespace Database

/-- The same type, or one option around it. -/
def referenceMode (spec : ReferenceSpec) (column targetColumn : String)
    (sourceType targetType : ScalarType) : Result ReferenceMode :=
  if sameType sourceType targetType then pure .exact
  else if (match sourceType with
    | .option inner => sameType inner targetType
    | _ => false) then pure .optional
  else fail .E_TYPE ("reference field '" ++ spec.table ++ "." ++ column ++ "' must match '" ++
    spec.targetTable ++ "." ++ targetColumn ++ "' exactly or wrap its type in one Option" : String)

def bindReferenceComponent (db : Database) (spec : ReferenceSpec) (source target : Table)
    (fields : String × String) : Result ReferenceComponent := do
  let sourceType ← db.catalog.fieldType source.schema fields.1
  let targetType ← db.catalog.fieldType target.schema fields.2
  let mode ← referenceMode spec fields.1 fields.2 sourceType targetType
  let fieldPath ← db.catalog.fieldPathIds source.schema fields.1
  let targetFieldPath ← db.catalog.fieldPathIds target.schema fields.2
  pure { column := fields.1, fieldPath, targetColumn := fields.2, targetFieldPath, mode,
         targetType }

/-- An unconditional unique index over the same fields in the same order. -/
def coversReference (index : IndexDefinition) (components : List ReferenceComponent) : Bool :=
  index.isUnique && index.predicate.isNone &&
    index.effectiveComponents.map (fun c => c.fieldPath) =
      components.map fun c => c.targetFieldPath

def referencesPrimaryKey (db : Database) (target : Table) (components : List ReferenceComponent) :
    Bool :=
  match components, target.primaryKey with
  | [component], some key =>
    match db.catalog.fieldPathIds target.schema key with
    | .ok path => path = component.targetFieldPath
    | .error _ => false
  | _, _ => false

def referenceTarget (db : Database) (target : Table) (components : List ReferenceComponent) :
    Result ReferenceTarget :=
  if db.referencesPrimaryKey target components then pure .primaryKey
  else
    match (((valuesOf (db.definitions target.name)).filter fun index =>
        coversReference index components).map fun index => index.id).min? with
    | some indexId => pure (.uniqueIndex indexId)
    | none => fail .E_SCHEMA
        ("reference target requires a primary key or unconditional unique index over the same " ++
          "ordered fields" : String)

def bindReference (db : Database) (spec : ReferenceSpec) : Result ReferenceDefinition := do
  if spec.fields = [] ∨ spec.fields.length > MAX_INDEX_COMPONENTS ∨
      spec.fields.length ≠ spec.targetFields.length then
    fail .E_SCHEMA "a reference requires matching source and target lists of 1 to 16 fields"
  else if ¬spec.fields.Nodup ∨ ¬spec.targetFields.Nodup then
    fail .E_SCHEMA "duplicate reference field"
  else do
    let source ← db.table spec.table
    let target ← db.table spec.targetTable
    let components ← (spec.fields.zip spec.targetFields).mapM
      (db.bindReferenceComponent spec source target)
    let target' ← db.referenceTarget target components
    pure { id := 0, tableId := source.id, targetTableId := target.id, target := target',
           components }

def migrationFails {α : Type} (message : Message) : Result α := fail .E_MIGRATION message

def orMigration {α : Type} (message : String) : Option α → Result α
  | some a => pure a
  | none => migrationFails message

/-- Whether the target that a reference was declared with is still one. -/
def pinnedValid (db : Database) (target : Table) (original bound : ReferenceDefinition) : Bool :=
  match original.target with
  | .primaryKey => bound.target = .primaryKey
  | .uniqueIndex indexId => (valuesOf (db.definitions target.name)).any fun index =>
    index.id = indexId && coversReference index bound.components

def sameComponent (old new : ReferenceComponent) : Bool :=
  old.mode = new.mode && sameType old.targetType new.targetType

def sameShape (left right : ReferenceDefinition) : Bool :=
  left.tableId = right.tableId && left.targetTableId = right.targetTableId &&
    left.components.map (fun c => (c.fieldPath, c.targetFieldPath)) =
      right.components.map fun c => (c.fieldPath, c.targetFieldPath)

/-- Bind a stored reference again, by the identities of its fields. -/
def rebindReference (db : Database) (original : ReferenceDefinition) :
    Result ReferenceDefinition := do
  let source ← orMigration "reference source table was removed" (db.tableById original.tableId)
  let target ← orMigration "reference target table was removed"
    (db.tableById original.targetTableId)
  let fields ← original.components.mapM fun component =>
    orMigration "reference source path was removed"
      (fieldPathName db.catalog source.schema component.fieldPath)
  let targetFields ← original.components.mapM fun component =>
    orMigration "reference target path was removed"
      (fieldPathName db.catalog target.schema component.targetFieldPath)
  let bound ← db.bindReference
    { table := source.name, fields := fields.map (".".intercalate ·), targetTable := target.name,
      targetFields := targetFields.map (".".intercalate ·) }
  if db.pinnedValid target original bound &&
      (original.components.zip bound.components).all fun c => sameComponent c.1 c.2 then
    pure { bound with id := original.id, target := original.target }
  else migrationFails "reference binding changed; drop and add the reference explicitly"

def boundReferenceDefinitions (db : Database) : Result (ExtTreeMap UInt64 ReferenceDefinition) :=
  (valuesOf db.referenceDefinitions).foldlM (fun definitions original => do
    let bound ← db.rebindReference original
    if (valuesOf definitions).any fun existing => sameShape existing bound then
      fail .E_SCHEMA "duplicate reference shape"
    else pure (definitions.insert bound.id bound)) ∅

def referenceTables (db : Database) (definition : ReferenceDefinition) : Result (String × String) :=
  match db.tableById definition.tableId, db.tableById definition.targetTableId with
  | some source, some target => pure (source.name, target.name)
  | _, _ => fail .E_INTERNAL "reference binding validated both tables"

def rebuildReferences [External] (db : Database) : Result Database := do
  let definitions ← db.boundReferenceDefinitions
  let states ← (valuesOf definitions).foldlM (fun states definition => do
    let (source, target) ← db.referenceTables definition
    let state ← db.buildReferenceState definition source target
    pure (states.insert definition.id state)) (∅ : ExtTreeMap UInt64 ReferenceState)
  pure { db with referenceDefinitions := definitions, referenceStates := states }

end Database

/-! ## The loader -/

/-- Failures of a step become storage failures. -/
def asStorage {α : Type} (context : String) : Result α → Result α
  | .ok a => pure a
  | .error e => fail .E_STORAGE (context ++ e.message)

/-- The catalog and the tables of the entries, before any row is read. -/
def loadCatalog [External] (header : DurableMeta) (entries : List DurableCatalogEntry) :
    Result (Catalog × CatalogEntries) := do
  let s ← entries.foldlM CatalogEntries.addEntry .empty
  if header.nextCatalogId ≤ s.maxId then
    storageFails "catalog next ID does not exceed every durable object ID"
  else do
    let catalog ← Catalog.restoreNextId { types := s.types, nextId := 1 } header.nextCatalogId
    asStorage "durable catalog contains an invalid type cycle: " catalog.validateFiniteTypes
    s.checkIndexTables
    pure (catalog, s)

def loadRows (catalog : Catalog) (objects : ExtTreeMap String Table) (rows : List DurableRow) :
    Result (ExtTreeMap String Table) := do
  let decoded ← (sortRows rows).foldlM (decodeRow catalog objects) ⟨∅, ∅⟩
  attachAll objects decoded.rows

/-- The last migration must describe the stored schema. -/
def checkLedger [DurableExternal] (header : DurableMeta) (history : List MigrationEntry) :
    Result Unit := do
  DurableExternal.validateHistory history
  match history.getLast? with
  | none => pure ()
  | some head =>
    if head.schemaRevision ≠ header.schemaRevision ∨ head.schemaHash ≠ header.schemaHash then
      storageFails "migration ledger head does not match the durable schema"
    else pure ()

/-- Rebuild the references; binding them again must not change them. -/
def loadReferences [DurableExternal] (db : Database) : Result Database := do
  let rebuilt ← asStorage "invalid durable reference: " db.rebuildReferences
  if DurableExternal.referenceJson rebuilt.referenceDefinitions ≠
      DurableExternal.referenceJson db.referenceDefinitions then
    storageFails "durable reference binding is not canonical"
  else pure rebuilt

/-- Old snapshots did not record revisions; what they hold counts as one. -/
def importedRevision (db : Database) (revision : UInt64) : UInt64 :=
  if revision = 0 ∧ (!db.catalog.types.isEmpty || !db.objects.isEmpty) then 1 else revision

/-- **The loader.** -/
def fromDurable [DurableExternal] (header : DurableMeta) (entries : List DurableCatalogEntry)
    (rows : List DurableRow) (history : List MigrationEntry) : Result LoadedDatabase := do
  let (catalog, s) ← loadCatalog header entries
  let objects ← loadRows catalog s.objects rows
  let database : Database :=
    { Database.empty with
      sequences := s.sequences
      referenceDefinitions := s.referenceDefinitions
      objects
      indexDefinitions := s.indexDefinitions
      catalog }
  database.validateGeneratedState
  checkLedger header history
  let database ← database.rebuildIndexes
  let database ← loadReferences database
  if DurableExternal.schemaHash database ≠ header.schemaHash then
    storageFails "durable schema hash does not match the catalog"
  else
    pure { database, sequence := header.sequence,
           schemaRevision := importedRevision database header.schemaRevision,
           migrationHistory := history }

end UnionId
