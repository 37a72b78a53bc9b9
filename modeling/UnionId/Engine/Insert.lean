import UnionId.Db.Durable
import UnionId.Db.Maintain
import UnionId.Db.Tables
import UnionId.Engine.Execute

/-!
# Inserting rows

An executor for `insert` with a returning clause, on a complete candidate and against the
stored rows. Values that the server generates need a clock and entropy and are not part of
it, so tables with generated defaults are refused.
-/
namespace UnionId

open Lib Scripts

def MAX_RETURNING_BYTES : ℕ := 8 * 1024 * 1024

structure InsertStatement where
  table : String
  values : Value
  returning : Option (List String)

/-- The columns of a response. -/
abbrev ReturnedColumns := List (String × ScalarType)

mutual

def ScalarType.containsMap : ScalarType → Bool
  | .map _ => true
  | .enum variants => variantsContainMap variants
  | .record columns => columnsContainMap columns
  | .tuple items => typesContainMap items
  | .option inner | .list inner => inner.containsMap
  | _ => false

def typesContainMap : List ScalarType → Bool
  | [] => false
  | ty :: rest => ty.containsMap || typesContainMap rest

def variantsContainMap : List (VariantOf ScalarType) → Bool
  | [] => false
  | ⟨_, args, _⟩ :: rest => typesContainMap args || variantsContainMap rest

def columnsContainMap : List (ColumnOf ScalarType) → Bool
  | [] => false
  | ⟨_, ty, _, _⟩ :: rest => ty.containsMap || columnsContainMap rest

end

namespace Database

def hasGeneratedDefaults (db : Database) : Bool :=
  !db.sequences.isEmpty || db.schemaTables.any fun table => !table.generatedDefaults.isEmpty

/-- A reference inside a type leads to another type of the catalog. -/
def requiresMapStorage (db : Database) : Bool :=
  (valuesOf db.catalog.types).any (fun definition => definition.ty.containsMap) ||
    (valuesOf db.objects).any fun table => columnsContainMap table.schema

def requiresPartialIndexStorage (db : Database) : Bool :=
  (valuesOf db.indexDefinitions).any fun definitions =>
    (valuesOf definitions).any fun definition => definition.predicate.isSome

def beginGenerationRequest (db : Database) : Database := { db with generationContext := none }

/-- The fields of the row that a value describes. -/
def coerceRow (db : Database) (name : String) (values : Value) : Result Fields := do
  let table ← db.table name
  let value ← db.catalog.coerce values table.rowScalarType name
  match value.unwrapped with
  | .record fields => .ok fields
  | _ => fail .E_TYPE "insert requires a complete record"

/-- A returning clause without fields stands for every column. -/
def bindReturning (db : Database) (name : String) :
    Option (List String) → Result (Option ReturnedColumns)
  | none => .ok none
  | some fields => do
    let table ← db.table name
    let fields := if fields.isEmpty then table.schema.map fun column => column.name else fields
    let types ← fields.mapM (db.catalog.fieldType table.schema)
    .ok (some (fields.zip types))

def returningRows [External] (rows : List Fields) : Option ReturnedColumns → Result (List Fields)
  | none => .ok []
  | some columns =>
    if rows.length > MAX_RESULT_ROWS then
      fail .E_LIMIT ("mutation returns " ++ toString rows.length ++ " rows; limit is " ++
        toString MAX_RESULT_ROWS ++ "; add a selective filter" : String)
    else
      let returned := rows.map fun row => columns.foldl (fun out column =>
        match rowField row column.1 with
        | some value => assocInsert column.1 value out
        | none => out) []
      if External.rowsSize returned > MAX_RETURNING_BYTES then
        fail .E_LIMIT ("mutation returning rows encode to " ++
          toString (External.rowsSize returned) ++ " bytes; limit is " ++
          toString MAX_RETURNING_BYTES : String)
      else .ok returned

/-- The row that the statement adds, and the response to it. -/
def prepareInsert [External] (db : Database) (s : InsertStatement) :
    Result (Fields × QueryResponse ReturnedColumns) := do
  let returning ← db.bindReturning s.table s.returning
  let table ← db.table s.table
  if !table.generatedDefaults.isEmpty then
    fail .E_GENERATION "generated defaults need a clock"
  else do
    let fields ← db.coerceRow s.table s.values
    let returned ← returningRows [fields] returning
    let response : QueryResponse ReturnedColumns :=
      .okMessage ("inserted into '" ++ s.table ++ "'" : String)
    .ok (fields, { response with affectedRows := some 1, rows := returned, detail := returning })

def insert [External] (db : Database) (s : InsertStatement) :
    Result (QueryResponse ReturnedColumns × Database) := do
  let (fields, response) ← db.prepareInsert s
  let (_, db) ← db.insertFields s.table fields
  .ok (response, db)

/-- Against the stored rows the changes of a statement are limited in size. -/
def insertFromSource [External] (db : Database) (s : InsertStatement) :
    Result (QueryResponse ReturnedColumns × Database) := do
  let (fields, response) ← db.prepareInsert s
  if External.rowSize fields > GENERAL_WORKING_MAX_BYTES then
    fail .E_LIMIT "mutation working state exceeds 67108864 encoded bytes"
  else do
    let (_, db) ← db.insertFields s.table fields
    .ok (response, db)

variable [External] {db db' : Database} {s : InsertStatement} {fields : Fields}
  {response : QueryResponse ReturnedColumns}

theorem prepareInsert_eq_ok (h : db.prepareInsert s = .ok (fields, response)) :
    db.coerceRow s.table s.values = .ok fields ∧ response.ok = true ∧ response.error = none := by
  obtain ⟨returning, -, table, -, h⟩ := of_bind₂ h
  obtain ⟨-, h⟩ := of_refused h
  obtain ⟨fields', hfields, returned, -, h⟩ := of_bind₂ h
  cases h
  exact ⟨hfields, rfl, rfl⟩

theorem insert_eq_ok (h : db.insert s = .ok (response, db')) : ∃ fields id,
    db.prepareInsert s = .ok (fields, response) ∧
      db.insertFields s.table fields = .ok (id, db') := by
  obtain ⟨⟨fields, response'⟩, hprepare, ⟨id, db''⟩, hinsert, h⟩ := of_bind₂ h
  cases h
  exact ⟨fields, id, hprepare, hinsert⟩

/-- An insertion appends one row to its table. -/
theorem insertFields_eq_ok {name : String} {id : RowId}
    (h : db.insertFields name fields = .ok (id, db')) : ∃ table nextRowId,
    db.objects[name]? = some table ∧ db'.catalog = db.catalog ∧
    db'.objects = db.objects.insert name
      { table with rows := table.rows ++ [⟨table.nextRowId, fields⟩], nextRowId } := by
  obtain ⟨table, htable, _, -, h⟩ := of_bind₂ h
  obtain ⟨_, -, _, -, h⟩ := of_bind₂ h
  obtain ⟨-, h⟩ := of_required h
  obtain ⟨entries, -, states, -, h⟩ := of_bind₂ h
  obtain ⟨db₁, hrecord, h⟩ := of_bind h
  cases h
  obtain ⟨_, -, _, -, hrecord⟩ := of_bind₂ hrecord
  cases hrecord
  exact ⟨table, _, table_eq_ok.mp htable, rfl, rfl⟩

/-- The bounded path only refuses more. -/
theorem insert_of_insertFromSource (h : db.insertFromSource s = .ok (response, db')) :
    db.insert s = .ok (response, db') := by
  obtain ⟨⟨fields, response'⟩, hprepare, h⟩ := of_bind h
  obtain ⟨-, h⟩ := of_refused h
  exact bind_eq_ok.mpr ⟨_, hprepare, h⟩

end Database

instance insertExecutor [DurableExternal] : Executor InsertStatement ReturnedColumns where
  schemaHash := DurableExternal.schemaHash
  beginGenerationRequest := Database.beginGenerationRequest
  execute state s := state.db.insert s
  executeBounded state s := state.db.insertFromSource s
  executeRead _ _ := fail .E_INTERNAL "an insert is not a query"
  hasGeneratedDefaults := Database.hasGeneratedDefaults
  hasReferences := Database.hasReferences
  requiresMapStorage := Database.requiresMapStorage
  requiresPartialIndexStorage := Database.requiresPartialIndexStorage
  hasMigrationHistory _ := false
  execute_ok h := by
    obtain ⟨_, _, hprepare, -⟩ := Database.insert_eq_ok h
    exact (Database.prepareInsert_eq_ok hprepare).2
  executeBounded_ok h := by
    obtain ⟨_, _, hprepare, -⟩ := Database.insert_eq_ok (Database.insert_of_insertFromSource h)
    exact (Database.prepareInsert_eq_ok hprepare).2
  executeBounded_effect h := ⟨_, Database.insert_of_insertFromSource h, rfl⟩

/-! ### Trees -/

/-- `type Tree = Leaf | Node(Tree)`, and room for the identities of a table. -/
def treeCatalog : Catalog where
  types := (∅ : Std.ExtTreeMap String TypeDefinition).insert "Tree"
    ⟨3, "Tree", .enum [⟨"Leaf", [], 1⟩, ⟨"Node", [.ref 3], 2⟩]⟩
  nextId := 6

def treeTable : Table where
  id := 5
  name := "trees"
  schema := [⟨"tree", .ref 3, none, 4⟩]
  rows := []
  nextRowId := 0
  rowType := none
  primaryKey := none
  generatedDefaults := ∅

/-- A chain of `n` nodes. -/
def tree : ℕ → Value
  | 0 => .named 3 (.enum "Leaf" [] 1)
  | n + 1 => .named 3 (.enum "Node" [tree n] 2)

def treeFile : CommittedView ReturnedColumns :=
  ⟨⟨0, 0, { Database.empty with
    catalog := treeCatalog, objects := (∅ : Std.ExtTreeMap String Table).insert
      "trees" treeTable }⟩,
    []⟩

def treeEngine : Engine ReturnedColumns where
  committed := treeFile
  file := treeFile
  durable := some ⟨3, true, true, true, true, true⟩
  wal := none
  snapshot := false
  storageMode := .redb
  snapshotEvery := 0
  writesSinceSnapshot := 0
  writeFailed := false
  readReopenRequired := false
  readOnly := false
  snapshotExecution := false

/-- `insert trees { tree = ... } returning tree`, and that one row is inserted. -/
def treeScript (n : ℕ) : List (Statement InsertStatement) :=
  [.run .insert ⟨"trees", .record [("tree", tree n)], some ["tree"]⟩, .expect .eq 1]

/-- A request whose commit ends in a given way; `unreadable` says that the new view cannot be
read. -/
def environment (commit : CommitOutcome) (unreadable : Bool) : Environment where
  deadline _ := .ok ()
  clock := .ok 1
  maintenance := .ok false
  candidate := .ok ()
  commit
  view := if unreadable then fail .E_STORAGE "the view cannot be read" else .ok ()
  wal := .appended
  checkpoint := .saved

/-- Nothing else is taken from other crates here. -/
@[reducible] def treeExternal : DurableExternal where
  rowSize _ := 0
  rowsSize _ := 0
  predicateDigest _ := ""
  schemaHash _ := ""
  referenceJson _ := []
  validateHistory _ := .ok ()

/-- A receipt is its own text, and `readable` says which texts are read. -/
@[reducible] def receiptText (readable : IdempotencyReceipt ReturnedColumns → Bool) :
    ReceiptEncoding ReturnedColumns where
  Text := IdempotencyReceipt ReturnedColumns
  encodedReceipt receipt := receipt
  length _ := 4096
  fromSlice text := if readable text then some text else none
  eq_of_fromSlice h := by
    split at h <;> cases h
    rfl

@[reducible] def treeText : ReceiptEncoding ReturnedColumns := receiptText fun _ => true

end UnionId
