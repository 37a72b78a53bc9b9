import UnionId.Lib.Coalesce
import UnionId.Lib.Posting
import UnionId.Model.Catalog

/-!
# The database state

Tables with their rows, secondary index definitions and postings, references
with their reverse postings, sequences, and the write set that a request has
accumulated. Ordered maps of the source are extensional tree maps; the write set
uses finite maps, since nothing reads it in key order.
-/
namespace UnionId

open Lib Std

def MAX_QUERY_WORKING_ROWS : ℕ := 250000
def MAX_RESULT_ROWS : ℕ := 100000
def GENERAL_WORKING_MAX_BYTES : ℕ := 64 * 1024 * 1024
/-- Row identities and other 64-bit counters stay below this bound. -/
def U64_LIMIT : ℕ := 2 ^ 64

/-- Functions the source takes from other crates. Nothing is assumed about their
results: sizes of JSON encodings and the digest of a canonical predicate. -/
class External where
  /-- Bytes of the JSON encoding of one row. -/
  rowSize : Fields → ℕ
  /-- Bytes of the JSON encoding of a list of rows. -/
  rowsSize : List Fields → ℕ
  /-- The hexadecimal SHA-256 digest that identifies a partial predicate. -/
  predicateDigest : List (List UInt64 × ℕ × Option (ScalarType × IndexKey)) → String

/-! ## Tables -/

abbrev RowId := ℕ

structure Row where
  id : RowId
  fields : Fields

/-- A table-level generator bound to stable catalog identities. -/
inductive BoundGeneratedDefault where
  | next (sequence : UInt64)
  | uuidV7
  | now
  deriving DecidableEq

structure Table where
  id : UInt64
  name : String
  schema : List Column
  rows : List Row
  nextRowId : RowId
  rowType : Option UInt64
  primaryKey : Option String
  generatedDefaults : ExtTreeMap UInt64 BoundGeneratedDefault

/-- The row with an identity. The source searches by bisection, since rows are
kept in ascending identity. -/
def findRow (rows : List Row) (id : RowId) : Option Row := rows.find? fun row => row.id = id

/-! ## Indexes -/

inductive IndexKind where
  | ordinary
  | unique
  deriving DecidableEq, Repr

structure IndexComponentDefinition where
  column : String
  fieldPath : List UInt64
  descending : Bool

/-- One condition of a partial index. -/
inductive IndexPredicateAtom where
  | equal (column : String) (fieldPath : List UInt64) (valueType : ScalarType) (value : Value)
  | isNone (column : String) (fieldPath : List UInt64)
  | isSome (column : String) (fieldPath : List UInt64)

namespace IndexPredicateAtom

def column : IndexPredicateAtom → String
  | equal column .. | isNone column _ | isSome column _ => column

def fieldPath : IndexPredicateAtom → List UInt64
  | equal _ path .. | isNone _ path | isSome _ path => path

/-- The operator of the condition, and what it compares with. -/
def payload : IndexPredicateAtom → ℕ × Option (ScalarType × IndexKey)
  | equal _ _ valueType value => (0, some (valueType, value.indexKey))
  | isNone .. => (1, none)
  | isSome .. => (2, none)

/-- Whether the condition holds of a row. -/
def holds (fields : Fields) (atom : IndexPredicateAtom) : Bool :=
  match rowField fields atom.column with
  | none => false
  | some value =>
    match atom with
    | equal _ _ _ expected => value.cmpEq expected
    | isNone .. => match value.unwrapped with
      | .option none => true
      | _ => false
    | isSome .. => match value.unwrapped with
      | .option (some _) => true
      | _ => false

end IndexPredicateAtom

structure IndexPredicate where
  atoms : List IndexPredicateAtom

namespace IndexPredicate

/-- The canonical identity of the conditions. -/
def identityKey [External] (predicate : IndexPredicate) : String :=
  "sha256:" ++ External.predicateDigest
    (predicate.atoms.map fun atom => (atom.fieldPath, atom.payload))

def «matches» (predicate : IndexPredicate) (fields : Fields) : Bool :=
  predicate.atoms.all fun atom => atom.holds fields

end IndexPredicate

/-- A secondary index. `column` and `fieldPath` serve catalogs from before
composite indexes. -/
structure IndexDefinition where
  id : UInt64
  tableId : UInt64
  column : String
  fieldPath : List UInt64
  components : List IndexComponentDefinition
  kind : IndexKind
  predicate : Option IndexPredicate

namespace IndexDefinition

def effectiveComponents (definition : IndexDefinition) : List IndexComponentDefinition :=
  if definition.components.isEmpty then
    [{ column := definition.column, fieldPath := definition.fieldPath, descending := false }]
  else definition.components

/-- Component columns with a minus sign before descending ones. -/
def joinComponents (separator : String) (components : List IndexComponentDefinition) : String :=
  separator.intercalate (components.map fun component =>
    (if component.descending then "-" else "") ++ component.column)

/-- The name of an index inside its table. -/
def shapeKey [External] (definition : IndexDefinition) : String :=
  let components := joinComponents "," definition.effectiveComponents
  match definition.predicate with
  | some predicate => components ++ " if " ++ predicate.identityKey
  | none => components

/-- How error texts name the index; the predicate text is left unrendered. -/
def displayConstraint (definition : IndexDefinition) : Message :=
  let shape := "(" ++ joinComponents ", " definition.effectiveComponents ++ ")"
  match definition.predicate with
  | some _ => (shape ++ " if <predicate>" : String)
  | none => shape

/-- Whether the index covers a row. -/
def includes (definition : IndexDefinition) (fields : Fields) : Bool :=
  match definition.predicate with
  | some predicate => predicate.matches fields
  | none => true

/-- A single ascending component on the primary key. -/
def isPrimaryIndex (definition : IndexDefinition) (primaryKey : Option String) : Bool :=
  match definition.effectiveComponents with
  | [component] => !component.descending && primaryKey = some component.column
  | _ => false

def isUnique (definition : IndexDefinition) : Bool := definition.kind = .unique

def uniqueConstraintKind (definition : IndexDefinition) : ConstraintKind :=
  if definition.predicate.isSome then .partialUnique else .unique

end IndexDefinition

/-- Row identities by encoded key. -/
abbrev IndexPosting := Posting (List UInt8) RowId
abbrev TableIndexes := ExtTreeMap String IndexPosting

/-! ## References -/

inductive ReferenceMode where
  | exact
  | optional
  deriving DecidableEq

inductive ReferenceTarget where
  | primaryKey
  | uniqueIndex (indexId : UInt64)
  deriving DecidableEq

structure ReferenceComponent where
  column : String
  fieldPath : List UInt64
  targetColumn : String
  targetFieldPath : List UInt64
  mode : ReferenceMode
  targetType : ScalarType

structure ReferenceDefinition where
  id : UInt64
  tableId : UInt64
  targetTableId : UInt64
  target : ReferenceTarget
  components : List ReferenceComponent

/-- Source row identities by reference key. -/
structure ReferenceState where
  sources : Posting (List UInt8) RowId

/-! ## Sequences -/

structure Sequence where
  id : UInt64
  name : String
  start : Int64
  next : Option Int64

/-! ## The write set -/

/-- The images of one row around a change. -/
structure RowChange where
  before : Option Row
  after : Option Row
  present : (before.or after).isSome

namespace RowChange

def inserted (row : Row) : RowChange := ⟨none, some row, rfl⟩
def updated (before after : Row) : RowChange := ⟨some before, some after, rfl⟩
def deleted (row : Row) : RowChange := ⟨some row, none, rfl⟩
def rowId (change : RowChange) : RowId := ((change.before.or change.after).get change.present).id

end RowChange

structure IndexEntryChange where
  indexId : UInt64
  value : Value
  rowId : RowId
  before : Bool
  after : Bool

/-- The changes of a request, coalesced per row, index entry, table and sequence.
Receipts belong to the engine and are left out. -/
structure LogicalWriteSet where
  rows : Coalesce.Log (String × RowId) RowChange
  tableWatermarks : Coalesce.Log String (RowId × RowId)
  indexEntries : Coalesce.Log (UInt64 × IndexKey × RowId) IndexEntryChange
  sequenceCounters : Coalesce.Log UInt64 (Option Int64 × Option Int64)

def LogicalWriteSet.empty : LogicalWriteSet := ⟨∅, ∅, ∅, ∅⟩

/-! ## The database -/

/-- The state of a database. An object is always a table. -/
structure Database where
  referenceDefinitions : ExtTreeMap UInt64 ReferenceDefinition
  referenceStates : ExtTreeMap UInt64 ReferenceState
  sequences : ExtTreeMap String Sequence
  generationContext : Option Timestamp
  objects : ExtTreeMap String Table
  indexes : ExtTreeMap String TableIndexes
  indexDefinitions : ExtTreeMap String (ExtTreeMap String IndexDefinition)
  catalog : Catalog
  pendingWrites : LogicalWriteSet

namespace Database

def empty : Database where
  referenceDefinitions := ∅
  referenceStates := ∅
  sequences := ∅
  generationContext := none
  objects := ∅
  indexes := ∅
  indexDefinitions := ∅
  catalog := .empty
  pendingWrites := .empty

def table (db : Database) (name : String) : Result Table :=
  match db.objects[name]? with
  | some table => .ok table
  | none => fail .E_TABLE ("table '" ++ name ++ "' not found" : String)

/-- The index definitions of a table, by shape. -/
def definitions (db : Database) (name : String) : ExtTreeMap String IndexDefinition :=
  db.indexDefinitions[name]?.getD ∅

/-- The postings of a table, by shape. -/
def tableIndexes (db : Database) (name : String) : TableIndexes := db.indexes[name]?.getD ∅

end Database
end UnionId
