import UnionId.Db.Index
import UnionId.Lib.Sorting
import UnionId.Query.Bind

/-!
# Pipelines

A query reads one table through a list of stages. Stages that look at one row at
a time, sorting and cutting are modelled here. Pattern matching and the stages
that relate rows to other rows or tables (exists, lookup, aggregate, window, set
operations) are left open: a `Dialect` names them and a `Semantics` says what they
do. Definitions inside a query (`let`) are expanded before a pipeline gets here,
so their stage does nothing.
-/
namespace UnionId

open Lib Catalog

/-! ## Syntax -/

structure SortKey where
  column : String
  descending : Bool
  ty : Option ScalarType

inductive PageDirection where
  | forward
  | backward
  deriving DecidableEq, Repr

structure CursorKey where
  fieldPath : List UInt64
  column : String
  descending : Bool
  value : Value

/-- The content of a page cursor. Its signed text stands for exactly this content. -/
structure Cursor where
  database : String
  schema : String
  snapshotSequence : ℕ
  planDigest : String
  direction : PageDirection
  limit : ℕ
  keys : List CursorKey

structure PageSpec where
  limit : ℕ
  direction : PageDirection
  cursor : Option Cursor

/-- The syntax that the model leaves open. -/
class Dialect where
  /-- A condition by pattern matching. -/
  MatchPredicate : Type
  /-- The arms of a column derived by pattern matching. -/
  MatchArms : Type
  /-- A stage that relates rows to other rows or tables. -/
  Relational : Type

inductive RelationalKind where
  | filterExists
  | lookup
  | aggregate
  | window
  | setOperation
  deriving DecidableEq, Repr

inductive Stage [Dialect] where
  | letBinding
  | filter (expression : BoolExpression)
  | filterMatch (predicate : Dialect.MatchPredicate)
  | derive (name : String) (expression : BoolExpression) (outputType : Option ScalarType)
  | deriveMatch (name : String) (arms : Dialect.MatchArms) (outputType : Option ScalarType)
  | relational (stage : Dialect.Relational)
  | select (columns : List String)
  | sort (keys : List SortKey)
  | take (offset limit : ℕ)
  | page (spec : PageSpec)

structure Pipeline [Dialect] where
  source : String
  stages : List Stage

/-- The meaning of what the model leaves open. Pattern matching draws on the
evaluation budget like any other condition. -/
class Semantics extends Builtins, Dialect where
  kind : Relational → RelationalKind
  bindMatch : Catalog → List Column → MatchPredicate → Result MatchPredicate
  bindMatchArms : Catalog → List Column → MatchArms → Result (MatchArms × ScalarType)
  evaluateMatch : Catalog → Fields → MatchPredicate → Evaluation Bool
  evaluateMatchArms : Catalog → Fields → MatchArms → Evaluation Value
  evaluateMatch_metered : ∀ catalog row predicate,
    Metered budgetError (evaluateMatch catalog row predicate)
  evaluateMatchArms_metered : ∀ catalog row arms,
    Metered budgetError (evaluateMatchArms catalog row arms)
  bindRelational : Database → List Column → Relational → Result (Relational × List Column)
  /-- A relational stage on all rows at once; aggregates have their own functions. -/
  applyRelational : Database → RowSource → Relational → List Fields → Result (List Fields)
  /-- The groups of an aggregate with their working state. -/
  Groups : Type
  newAggregateGroups : Relational → Groups
  aggregateOneRow : Catalog → Relational → Groups → Fields → Result Groups
  finishAggregateGroups : Catalog → Relational → Groups → Result (List Fields)
  /-- The digest of the text of a query and a page direction. -/
  planDigest : Pipeline → PageDirection → String
  databaseInstance : Database → String
  schemaInfo : Database → String
  sequence : Database → ℕ
  /-- Whether the text of a cursor exceeds its size limit. -/
  cursorTooLarge : Cursor → Bool

namespace Stage
variable [Dialect]

def isPage : Stage → Bool
  | .page _ => true
  | _ => false

end Stage

/-! ## Binding -/

def replaceOrAppendColumn (schema : List Column) (column : Column) : List Column :=
  if schema.any (fun existing => existing.name = column.name) then
    schema.replaceF fun existing => if existing.name = column.name then some column else none
  else schema ++ [column]

def selectColumns (catalog : Catalog) (schema : List Column) (columns : List String) :
    Result (List Column) :=
  columns.mapM fun name => do
    let ty ← catalog.fieldType schema name
    pure ⟨name, ty, none, 0⟩

def bindSortKey (catalog : Catalog) (schema : List Column) (key : SortKey) : Result SortKey := do
  let ty ← catalog.fieldType schema key.column
  if !(← orderable catalog ty) then
    fail .E_TYPE ("field '" ++ key.column ++ "' has no ordering" : String)
  pure { key with ty := some ty }

variable [Semantics]

/-- Resolve one stage against the columns before it. -/
def bindStage (db : Database) (schema : List Column) : Stage → Result (Stage × List Column)
  | .letBinding => pure (.letBinding, schema)
  | .filter expression => return (.filter (← Expression.bind db.catalog schema expression), schema)
  | .filterMatch predicate =>
    return (.filterMatch (← Semantics.bindMatch db.catalog schema predicate), schema)
  | .derive name expression _ => do
    let (expression, ty) ← bindDerive db.catalog schema expression
    pure (.derive name expression (some ty), replaceOrAppendColumn schema ⟨name, ty, none, 0⟩)
  | .deriveMatch name arms _ => do
    let (arms, ty) ← Semantics.bindMatchArms db.catalog schema arms
    pure (.deriveMatch name arms (some ty), replaceOrAppendColumn schema ⟨name, ty, none, 0⟩)
  | .relational stage => do
    let (stage, schema) ← Semantics.bindRelational db schema stage
    pure (.relational stage, schema)
  | .select columns => return (.select columns, ← selectColumns db.catalog schema columns)
  | .sort keys => return (.sort (← keys.mapM (bindSortKey db.catalog schema)), schema)
  | .take offset limit => pure (.take offset limit, schema)
  | .page spec => pure (.page spec, schema)

/-- Resolve every stage without touching rows. -/
def bindStages (db : Database) (schema : List Column) : List Stage →
    Result (List Stage × List Column)
  | [] => pure ([], schema)
  | stage :: stages => do
    let (stage, schema) ← bindStage db schema stage
    let (stages, schema) ← bindStages db schema stages
    pure (stage :: stages, schema)

/-! ## Whole rows -/

/-- Keep the listed fields that a row has. -/
def projectRow (row : Fields) (columns : List String) : Fields :=
  columns.foldl (fun out name =>
    match rowField row name with
    | some value => assocInsert name value out
    | none => out) []

def sortField (row : Fields) (column : String) : Result Value :=
  match rowField row column with
  | some value => pure value
  | none => fail .E_FIELD ("sort field '" ++ column ++ "' is missing" : String)

def compareRowsByTypedKeys (catalog : Catalog) : List SortKey → Fields → Fields → Result Ordering
  | [], _, _ => pure .eq
  | key :: keys, left, right =>
    match key.ty with
    | none => fail .E_TYPE ("sort field '" ++ key.column ++ "' was not bound" : String)
    | some ty => do
      let l ← sortField left key.column
      let r ← sortField right key.column
      let ordering ← catalog.cmpTyped ty l r
      match if key.descending then ordering.swap else ordering with
      | .eq => compareRowsByTypedKeys catalog keys left right
      | ordering => pure ordering

/-- A stable sort by bound keys. -/
def sortByTyped {α : Type} (catalog : Catalog) (keys : List SortKey) (fields : α → Fields)
    (rows : List α) : Result (List α) :=
  sortM (fun left right => compareRowsByTypedKeys catalog keys (fields left) (fields right)) rows

end UnionId
