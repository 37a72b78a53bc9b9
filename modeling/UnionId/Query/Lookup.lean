import UnionId.Query.Execute

/-!
# Lookups

A lookup attaches to every row the rows of another table whose key equals a field of the
row. For each driver row it runs a query of its own: a filter on the target key, a sort by
it that the index replaces, and a cut one row behind the limit. So the index reader stops
as soon as there are too many rows.
-/
namespace UnionId

open Lib Catalog

def MAX_LOOKUP_MATCHES : ℕ := 1000
def MAX_LOOKUP_DRIVERS : ℕ := 10000

structure Lookup where
  name : String
  table : String
  targetKey : String
  sourceKey : String
  limit : ℕ
  outputType : Option ScalarType
  index : Option String

/-! ## Binding -/

/-- Whether an index can serve a lookup: it covers every row and starts with the key. -/
def IndexDefinition.servesLookup (definition : IndexDefinition) (targetKey : String) : Bool :=
  definition.predicate.isNone &&
    definition.effectiveComponents.head?.any fun component => component.column = targetKey

/-- The index with fewer components, then the older one. -/
def simplerIndex (best : Option IndexDefinition) (definition : IndexDefinition) :
    Option IndexDefinition :=
  match best with
  | none => some definition
  | some current =>
    if definition.effectiveComponents.length < current.effectiveComponents.length ∨
        definition.effectiveComponents.length = current.effectiveComponents.length ∧
          definition.id < current.id then some definition
    else some current

/-- How a bound lookup names its index. -/
def lookupIndexName (table : String) (components : List IndexComponentDefinition) : String :=
  match components with
  | [component] =>
    if component.descending then table ++ " (" ++
      IndexDefinition.joinComponents ", " components ++ ")"
    else table ++ "." ++ component.column
  | _ => table ++ " (" ++ IndexDefinition.joinComponents ", " components ++ ")"

/-- Resolve a lookup against the columns before it; it adds one column. -/
def bindLookup (db : Database) (schema : List Column) (lookup : Lookup) :
    Result (Lookup × Column) :=
  if lookup.limit < 1 ∨ lookup.limit > MAX_LOOKUP_MATCHES then
    fail .E_LIMIT ("lookup take must be between 1 and " ++ toString MAX_LOOKUP_MATCHES : String)
  else if schema.any fun column => column.name = lookup.name then
    fail .E_FIELD ("lookup output '" ++ lookup.name ++ "' already exists" : String)
  else do
    let sourceType ← db.catalog.fieldType schema lookup.sourceKey
    let target ← db.table lookup.table
    let targetType ← db.catalog.fieldType target.schema lookup.targetKey
    if !sameType sourceType targetType then
      fail .E_TYPE ("lookup keys '" ++ lookup.sourceKey ++ "' and '" ++ lookup.table ++ "." ++
        lookup.targetKey ++ "' have different types (" ++ Message.type sourceType ++ " and " ++
        Message.type targetType ++ ")")
    else
      match ((valuesOf (db.definitions lookup.table)).filter
          (·.servesLookup lookup.targetKey)).foldl simplerIndex none with
      | none => fail .E_RELATION_KEY ("lookup target '" ++ lookup.table ++ "." ++
          lookup.targetKey ++
          "' must be the first field of an index" : String)
      | some definition =>
        let outputType := .list ((target.rowType.map .ref).getD (.record target.schema))
        pure ({ lookup with
          outputType := some outputType
          index := some (lookupIndexName lookup.table definition.effectiveComponents) },
          ⟨lookup.name, outputType, none, 0⟩)

/-! ## Execution -/

section
variable [Semantics]

/-- The query of one driver row. All rows behind the filter have one key, so the sort costs
nothing and lets the index reader stop behind the cut. -/
def lookupPipeline (lookup : Lookup) (key : Value) : Pipeline where
  source := lookup.table
  stages := [
    .filter (.compare (.reference lookup.targetKey) .eq (.literal key) none),
    .sort [⟨lookup.targetKey, false, none⟩],
    .take 0 (lookup.limit + 1)]

variable [External]

/-- Attach the matching rows to one driver row. -/
def lookupRow (db : Database) (source : RowSource) (lookup : Lookup) (workingBytes : ℕ)
    (row : Fields) :
    Result (Fields × ℕ) :=
  match rowField row lookup.sourceKey with
  | none => fail .E_FIELD
      ("missing lookup source field '" ++ lookup.sourceKey ++ "' during execution" : String)
  | some key => do
    let response ← queryFrom db source (lookupPipeline lookup key)
    if response.rows.length > lookup.limit then
      fail .E_RELATION_LIMIT ("lookup '" ++ lookup.name ++ "' matched more than " ++
        toString lookup.limit ++ " rows for one driver row" : String)
    else do
      let next := assocInsert lookup.name (.list (response.rows.map .record)) row
      let bytes ← checkStreamingRowBytes next (workingBytes - External.rowSize row)
      pure (next, bytes)

/-- Row after row; the size check of a row continues from the one before. -/
def lookupRows (db : Database) (source : RowSource) (lookup : Lookup) :
    ℕ → List Fields → Result (List Fields)
  | _, [] => pure []
  | workingBytes, row :: rows => do
    let (row, workingBytes) ← lookupRow db source lookup workingBytes row
    let rows ← lookupRows db source lookup workingBytes rows
    pure (row :: rows)

def applyLookup (db : Database) (source : RowSource) (lookup : Lookup) (rows : List Fields) :
    Result (List Fields) :=
  if rows.length > MAX_LOOKUP_DRIVERS then
    fail .E_LIMIT ("lookup has " ++ toString rows.length ++ " driver rows; limit is " ++
      toString MAX_LOOKUP_DRIVERS ++ "; add filter, take, or page before lookup" : String)
  else do
    let workingBytes ← checkMaterializedRows rows
    lookupRows db source lookup workingBytes rows

end

end UnionId
