import UnionId.Db.Types
import UnionId.OrderedKey

/-!
# Index keys and postings

The key a row has under an index, the posting map built over all rows, and the
row source through which queries and checks read a database.
-/
namespace UnionId

open Lib Std

/-! ## Keys of rows -/

def validateIndexValue (value : Value) (table column : String) : Result Unit :=
  if value.oversized then
    fail .E_INDEX_KEY_LIMIT ("indexed bytes in '" ++ table ++ "." ++ column ++ "' exceed " ++
      toString MAX_INDEXED_BYTES ++ " bytes" : String)
  else pure ()

def indexComponentValue (fields : Fields) (table : String) (component : IndexComponentDefinition) :
    Result Value :=
  match rowField fields component.column with
  | none => fail .E_FIELD
      ("missing indexed field '" ++ table ++ "." ++ component.column ++ "'" : String)
  | some value => do
    validateIndexValue value table component.column
    pure value

def indexValues (fields : Fields) (components : List IndexComponentDefinition) (table : String) :
    Result (List Value) :=
  components.mapM (indexComponentValue fields table)

/-- A single value stands for itself, several form a tuple. -/
def tupleOf : List Value → Value
  | [value] => value
  | values => .tuple values

/-- The value under which the write set names an index entry. -/
def indexValue (fields : Fields) (components : List IndexComponentDefinition) (table : String) :
    Result Value := do
  let values ← indexValues fields components table
  pure (tupleOf values)

def boundComponents (components : List IndexComponentDefinition) (types : List ScalarType)
    (values : List Value) : List OrderedKey.Component :=
  ((components.zip types).zip values).map fun c =>
    { ty := c.1.2, value := c.2, descending := c.1.1.descending }

/-- Bytes of a complete key around its tuple. -/
def COMPLETE_KEY_OVERHEAD : ℕ := 23

/-- Refuse a tuple whose complete key would be too long. -/
def limitedKey (key : List UInt8) : Result (List UInt8) :=
  if COMPLETE_KEY_OVERHEAD + key.length > OrderedKey.MAX_COMPLETE_INDEX_KEY_BYTES then
    fail .E_INDEX_KEY_LIMIT ("encoded secondary index key is " ++
      toString (COMPLETE_KEY_OVERHEAD + key.length) ++ " bytes; limit is " ++
      toString OrderedKey.MAX_COMPLETE_INDEX_KEY_BYTES : String)
  else pure key

/-- The key of a row of a table with the given columns. -/
def tupleKey (catalog : Catalog) (schema : List Column) (table : String)
    (components : List IndexComponentDefinition) (fields : Fields) : Result (List UInt8) := do
  let values ← indexValues fields components table
  let types ← components.mapM fun component => catalog.fieldType schema component.column
  let key ← OrderedKey.encodeTuple catalog (boundComponents components types values)
  limitedKey key

/-- The key of a row the index covers. -/
def includedKey (catalog : Catalog) (schema : List Column) (table : String)
    (definition : IndexDefinition) (fields : Fields) : Result (Option (List UInt8)) :=
  if definition.includes fields then do
    let key ← tupleKey catalog schema table definition.effectiveComponents fields
    pure (some key)
  else pure none

/-- Add the rows an index covers to a posting, in row order. -/
def postRows (catalog : Catalog) (schema : List Column) (table : String)
    (definition : IndexDefinition) : IndexPosting → List Row → Result IndexPosting
  | posting, [] => pure posting
  | posting, row :: rows => do
    match ← includedKey catalog schema table definition row.fields with
    | none => postRows catalog schema table definition posting rows
    | some key => postRows catalog schema table definition (posting.pushBack key row.id) rows

namespace Database

def indexTupleKey (db : Database) (name : String) (components : List IndexComponentDefinition)
    (fields : Fields) : Result (List UInt8) := do
  let table ← db.table name
  tupleKey db.catalog table.schema name components fields

def includedIndexTupleKey (db : Database) (name : String) (definition : IndexDefinition)
    (fields : Fields) : Result (Option (List UInt8)) :=
  if definition.includes fields then do
    let key ← db.indexTupleKey name definition.effectiveComponents fields
    pure (some key)
  else pure none

/-- The tuple of one ascending column, without a length check. -/
def singleIndexKey (db : Database) (name column : String) (value : Value) :
    Result (List UInt8) := do
  let table ← db.table name
  let ty ← db.catalog.fieldType table.schema column
  OrderedKey.encodeTuple db.catalog [{ ty, value, descending := false }]

/-- The posting of an index over the current rows. -/
def buildIndex (db : Database) (name : String) (definition : IndexDefinition) :
    Result IndexPosting := do
  let table ← db.table name
  postRows db.catalog table.schema name definition ∅ table.rows

theorem includedIndexTupleKey_of_table {db : Database} {name : String} {table : Table}
    (h : db.table name = .ok table) (definition : IndexDefinition) (fields : Fields) :
    db.includedIndexTupleKey name definition fields =
      includedKey db.catalog table.schema name definition fields := by
  simp only [includedIndexTupleKey, indexTupleKey, includedKey, h, ok_bind]

end Database

/-! ## Reading a database -/

/-- One end of a key range. -/
inductive Bound where
  | included (key : List UInt8)
  | excluded (key : List UInt8)
  | unbounded

structure EncodedIndexBounds where
  lower : Bound
  upper : Bound

/-- Whether a key lies inside a range. -/
def EncodedIndexBounds.contains (bounds : EncodedIndexBounds) (key : List UInt8) : Bool :=
  (match bounds.lower with
    | .included low => (compare low key).isLE
    | .excluded low => (compare low key).isLT
    | .unbounded => true) &&
  (match bounds.upper with
    | .included high => (compare key high).isLE
    | .excluded high => (compare key high).isLT
    | .unbounded => true)

/-- The range that holds one key. -/
def EncodedIndexBounds.point (key : List UInt8) : EncodedIndexBounds :=
  ⟨.included key, .included key⟩

theorem EncodedIndexBounds.contains_point (key other : List UInt8) :
    (point key).contains other = true ↔ other = key := by
  simp only [contains, point, Bool.and_eq_true]
  constructor
  · rintro ⟨h₁, h₂⟩
    exact LawfulEqOrd.eq_of_compare (Std.OrientedCmp.isLE_antisymm h₂ h₁)
  · rintro rfl
    simp

structure IndexHit where
  boundary : List UInt8
  rowId : RowId

structure TableStats where
  rows : ℕ
  nextRowId : RowId

/-- What queries and checks read: a snapshot of tables, index postings and
reference postings. The batches of a cursor are joined into one list. -/
structure RowSource where
  referenceSourceExists : UInt64 → List UInt8 → List RowId → Result Bool
  tableStats : String → Result TableStats
  hasIndex : String → String → Bool
  estimateIndexSpan : String → String → EncodedIndexBounds → Result ℕ
  getRow : String → RowId → Result (Option Row)
  scanRows : String → Result (List Row)
  scanIndex : String → String → EncodedIndexBounds → (reverse : Bool) → (readLimit : Option ℕ) →
    Result (List IndexHit)

/-- Stop a scan after a number of hits. The source compares the count only after
a hit, so a limit of zero never stops it. -/
def limitHits {α : Type} (readLimit : Option ℕ) (hits : List α) : List α :=
  match readLimit with
  | some (n + 1) => hits.take (n + 1)
  | _ => hits

namespace Database

def planned (db : Database) (name shape : String) : Result IndexPosting :=
  match (db.tableIndexes name)[shape]? with
  | some posting => .ok posting
  | none => fail .E_STORAGE "planned index disappeared"

def memoryReferenceSourceExists (db : Database) (referenceId : UInt64) (key : List UInt8)
    (excluded : List RowId) : Result Bool :=
  match db.referenceStates[referenceId]? with
  | none => fail .E_STORAGE "reference postings are missing"
  | some state => pure ((state.sources.idsAt key).any fun id => id ∉ excluded)

/-- A database read in memory. -/
def rowSource (db : Database) : RowSource where
  referenceSourceExists := db.memoryReferenceSourceExists
  tableStats name := do
    let table ← db.table name
    pure { rows := table.rows.length, nextRowId := table.nextRowId }
  hasIndex name shape := (db.tableIndexes name)[shape]?.isSome
  estimateIndexSpan name shape bounds := do
    let posting ← db.planned name shape
    pure (posting.scan bounds.contains false).length
  getRow name id := do
    let table ← db.table name
    pure (findRow table.rows id)
  scanRows name := do
    let table ← db.table name
    pure table.rows
  scanIndex name shape bounds reverse readLimit := do
    let posting ← db.planned name shape
    pure (limitHits readLimit ((posting.scan bounds.contains reverse).map fun e => ⟨e.1, e.2⟩))

end Database
end UnionId
