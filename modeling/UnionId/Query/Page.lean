import UnionId.Query.Access

/-!
# Pages

A page stage returns a bounded part of a query in its final order, with cursors
that continue in both directions. The final sort must be unique by declaration:
it ends in the primary key, or it covers the rest of a unique index behind fields
that the leading filters fix. A cursor holds the sort values of a boundary row.
-/
namespace UnionId

open Lib Catalog

def MAX_PAGE_LIMIT : ℕ := 1000
def MAX_CURSOR_SORT_KEYS : ℕ := 16

variable [Semantics]

/-! ## Cursors -/

/-- Issue a cursor, within its size limits. -/
def encodeCursor (cursor : Cursor) : Result Cursor :=
  if cursor.keys.length > MAX_CURSOR_SORT_KEYS then
    fail .E_CURSOR_LIMIT
      ("cursor sort key count exceeds " ++ toString MAX_CURSOR_SORT_KEYS : String)
  else if Semantics.cursorTooLarge cursor then
    fail .E_CURSOR_LIMIT "cursor exceeds its byte limits"
  else pure cursor

/-- The digest of a query without its cursor, for a direction. -/
def pagePlanDigest (pipeline : Pipeline) (direction : PageDirection) : String :=
  Semantics.planDigest { pipeline with stages := pipeline.stages.map fun
    | .page spec => .page { spec with cursor := none, direction }
    | stage => stage } direction

/-- Check that a cursor belongs to this database, schema, query and state. -/
def decodeCursor (db : Database) (spec : PageSpec) (digest : String) (cursor : Cursor) :
    Result (List CursorKey) :=
  if Semantics.cursorTooLarge cursor then
    fail .E_CURSOR_LIMIT "cursor exceeds its byte limits"
  else if cursor.keys.length > MAX_CURSOR_SORT_KEYS then
    fail .E_CURSOR_LIMIT
      ("cursor sort key count exceeds " ++ toString MAX_CURSOR_SORT_KEYS : String)
  else if cursor.database ≠ Semantics.databaseInstance db then
    fail .E_CURSOR_DATABASE "cursor belongs to another database instance"
  else if cursor.schema ≠ Semantics.schemaInfo db then
    fail .E_CURSOR_SCHEMA "cursor schema identity no longer matches the database"
  else if cursor.planDigest ≠ digest ∨ cursor.direction ≠ spec.direction ∨
      cursor.limit ≠ spec.limit then
    fail .E_CURSOR_QUERY
      "cursor does not match the bound query, parameters, direction, or page limit"
  else if cursor.snapshotSequence ≠ Semantics.sequence db then
    fail .E_CURSOR_STALE "database commit sequence changed after the cursor was created"
  else pure cursor.keys

/-- One boundary value, brought to the type of its sort key. -/
def boundaryKey (catalog : Catalog) (key : CursorKey) (expected : BoundPageOrder) : Result Value :=
  if key.column ≠ expected.key.column ∨ key.fieldPath ≠ expected.fieldPath ∨
      key.descending ≠ expected.key.descending then
    fail .E_CURSOR_QUERY "cursor sort key identity does not match the query"
  else catalog.coerce key.value expected.ty "cursor boundary"

def pageBoundaryValues (db : Database) (spec : PageSpec) (digest : String)
    (order : List BoundPageOrder) : Option Cursor → Result (Option (List Value))
  | none => pure none
  | some cursor => do
    let keys ← decodeCursor db spec digest cursor
    if keys.length ≠ order.length then
      fail .E_CURSOR_QUERY "cursor sort key count does not match the query"
    let values ← (keys.zip order).mapM fun (key, expected) => boundaryKey db.catalog key expected
    pure (some values)

/-! ## The shape of a paged query -/

/-- The page stage of a pipeline with its position. -/
def pageStages (stages : List Stage) : List (ℕ × PageSpec) :=
  stages.zipIdx.filterMap fun
    | (.page spec, position) => some (position, spec)
    | _ => none

def Stage.isRelational (kinds : List RelationalKind) : Stage → Bool
  | .relational stage => Semantics.kind stage ∈ kinds
  | _ => false

def Stage.isSelect : Stage → Bool
  | .select _ => true
  | _ => false

def Stage.isTake : Stage → Bool
  | .take .. => true
  | _ => false

def lastSort (stages : List Stage) : Option (ℕ × List SortKey) :=
  (stages.zipIdx.filterMap fun
    | (.sort keys, position) => some (position, keys)
    | _ => none).getLast?

/-- Whether a stage derives a column of this name. -/
def Stage.derives (name : String) : Stage → Bool
  | .derive derived .. | .deriveMatch derived .. => derived = name
  | _ => false

/-- The final sort ends in the primary key, which no earlier stage derives anew. -/
def primaryKeyProof (table : Table) (before : List Stage) (keys : List SortKey) : Bool :=
  table.primaryKey.any fun primaryKey =>
    (keys.getLast?.map (·.column)) = some primaryKey && !before.any (·.derives primaryKey)

/-- How many leading components the filters fix. -/
def fixedComponents (constraints : List IndexConstraint)
    (components : List IndexComponentDefinition) : ℕ :=
  (components.takeWhile fun component => constraints.any fun constraint =>
    constraint.column = component.column && constraint.op = .eq).length

/-- The final sort covers the rest of a unique index behind fixed fields. -/
def coversUniqueIndex (pipeline : Pipeline) (sortPosition : ℕ) (keys : List SortKey)
    (atoms : List IndexPredicateAtom) (definition : IndexDefinition) : Bool :=
  let components := definition.effectiveComponents
  let equalityComponents := fixedComponents (leadingIndexConstraints pipeline) components
  let fixed := (components.take equalityComponents).map (·.column)
  definition.isUnique && definition.proven atoms &&
    (keys.filter fun key => key.column ∉ fixed).length = components.length - equalityComponents &&
    (indexSortMatch pipeline.stages components equalityComponents).any fun m => m.1 = sortPosition

def pageUniqueIndex (db : Database) (pipeline : Pipeline) (sortPosition : ℕ)
    (keys : List SortKey) : Bool :=
  match leadingQueryPredicateAtoms db pipeline.source pipeline with
  | .error _ => false
  | .ok atoms =>
    (valuesOf (db.definitions pipeline.source)).any
      (coversUniqueIndex pipeline sortPosition keys atoms)

/-- The columns before a stage, from bound stages. -/
def columnsBefore (catalog : Catalog) (schema : List Column) : List Stage → Result (List Column)
  | [] => pure schema
  | .derive name _ outputType :: stages | .deriveMatch name _ outputType :: stages =>
    match outputType with
    | none => fail .E_TYPE "derive output is not bound"
    | some ty => columnsBefore catalog (replaceOrAppendColumn schema ⟨name, ty, none, 0⟩) stages
  | .select columns :: stages => do
    let schema ← selectColumns catalog schema columns
    columnsBefore catalog schema stages
  | _ :: stages => columnsBefore catalog schema stages

def boundOrder (catalog : Catalog) (tableSchema schema : List Column) (key : SortKey) :
    Result BoundPageOrder := do
  let ty ← catalog.fieldType schema key.column
  pure ⟨key, ((catalog.fieldPathIds tableSchema key.column).toOption).getD [], ty⟩

def pageShape {α : Type} (message : String) : Result α := fail .E_PAGE_SHAPE message

/-- The shape checks around a page stage: its position, its size, and the final
sort before it. -/
def pageSort (stages : List Stage) (position : ℕ) (spec : PageSpec) : Result (ℕ × List SortKey) :=
  if (stages.take position).any (·.isRelational [.lookup]) then
    pageShape "lookup must follow page in a paginated query"
  else if (stages.drop (position + 1)).any
      fun stage => !(stage.isRelational [.lookup] || stage.isSelect) then
    pageShape "only lookup and select may follow page"
  else if ¬(1 ≤ spec.limit ∧ spec.limit ≤ MAX_PAGE_LIMIT) then
    pageShape ("page size must be between 1 and " ++ toString MAX_PAGE_LIMIT)
  else if stages.any fun stage => stage.isTake || stage.isRelational [.aggregate, .window] then
    pageShape "page does not support take, aggregate, group, or window stages"
  else
    match lastSort (stages.take position) with
    | none => fail .E_PAGE_ORDER "page requires an explicit statically unique sort"
    | some (sortPosition, keys) =>
      if ((stages.take position).drop (sortPosition + 1)).any fun stage => !stage.isSelect then
        pageShape "only select may appear between the final sort and page"
      else if keys.isEmpty ∨ keys.length > MAX_CURSOR_SORT_KEYS then
        fail .E_PAGE_ORDER ("page sort must contain between 1 and " ++
          toString MAX_CURSOR_SORT_KEYS ++ " fields" : String)
      else pure (sortPosition, keys)

/-- Resolve the page stage of a bound pipeline. -/
def preparePage (db : Database) (pipeline : Pipeline) : Result (Option PreparedPage) :=
  match pageStages pipeline.stages with
  | [] => pure none
  | [(position, spec)] => do
    let (sortPosition, keys) ← pageSort pipeline.stages position spec
    let table ← db.table pipeline.source
    let before := pipeline.stages.take sortPosition
    if !primaryKeyProof table before keys && !pageUniqueIndex db pipeline sortPosition keys then
      fail .E_PAGE_ORDER ("page sort must end in an unchanged primary key or cover a complete " ++
        "unique-index suffix after equality-fixed fields" : String)
    let schema ← columnsBefore db.catalog table.schema before
    let order ← keys.mapM (boundOrder db.catalog table.schema schema)
    let forwardDigest := pagePlanDigest pipeline .forward
    let backwardDigest := pagePlanDigest pipeline .backward
    let boundary ← pageBoundaryValues db spec
      (match spec.direction with
        | .forward => forwardDigest
        | .backward => backwardDigest) order spec.cursor
    pure (some { spec, order, boundary, forwardDigest, backwardDigest })
  | _ => pageShape "a query may contain only one page stage"

/-! ## The page -/

structure PageInfo where
  limit : ℕ
  direction : PageDirection
  snapshotSequence : ℕ
  nextCursor : Option Cursor
  previousCursor : Option Cursor
  hasMore : Bool

/-- The place of a row relative to a page boundary. -/
def comparePageBoundary (catalog : Catalog) (row : Fields) :
    List (BoundPageOrder × Value) → Result Ordering
  | [] => pure .eq
  | (order, boundary) :: rest =>
    match rowField row order.key.column with
    | none => fail .E_CURSOR_QUERY ("page sort field '" ++ order.key.column ++
        "' is missing" : String)
    | some value =>
      match catalog.cmpTyped order.ty value boundary with
      | .error error => fail .E_CURSOR_CODEC error.message
      | .ok comparison =>
        match if order.key.descending then comparison.swap else comparison with
        | .eq => comparePageBoundary catalog row rest
        | comparison => pure comparison

/-- Whether a row lies beyond the boundary, in the direction of the page. -/
def pageEligible (catalog : Catalog) (page : PreparedPage) (row : Fields) : Result Bool :=
  match page.boundary with
  | none => pure true
  | some boundary => do
    let order ← comparePageBoundary catalog row (page.order.zip boundary)
    pure (match page.spec.direction with
      | .forward => order == .gt
      | .backward => order == .lt)

/-- The first rows that satisfy a condition. -/
def selectFirst (eligible : Fields → Result Bool) : ℕ → List Fields → Result (List Fields)
  | 0, _ => pure []
  | _, [] => pure []
  | room + 1, row :: rows => do
    if ← eligible row then do
      let rest ← selectFirst eligible room rows
      pure (row :: rest)
    else selectFirst eligible (room + 1) rows

def cursorKey (row : Fields) (order : BoundPageOrder) : Result CursorKey :=
  match rowField row order.key.column with
  | some value => pure ⟨order.fieldPath, order.key.column, order.key.descending, value⟩
  | none => fail .E_CURSOR_CODEC "page boundary field disappeared"

def cursorForRow (db : Database) (page : PreparedPage) (direction : PageDirection) (row : Fields) :
    Result Cursor := do
  let keys ← page.order.mapM (cursorKey row)
  encodeCursor {
    database := Semantics.databaseInstance db
    schema := Semantics.schemaInfo db
    snapshotSequence := Semantics.sequence db
    planDigest := match direction with
      | .forward => page.forwardDigest
      | .backward => page.backwardDigest
    direction, limit := page.spec.limit, keys }

/-- The cursor at a boundary row, where one is due. -/
def cursorAt (db : Database) (page : PreparedPage) (direction : PageDirection) (due : Bool)
    (row : Option Fields) : Result (Option Cursor) :=
  match row with
  | some row => if due then return some (← cursorForRow db page direction row) else pure none
  | none => pure none

/-- The rows of a page with one more to look ahead, in result order. -/
def pageRows (catalog : Catalog) (page : PreparedPage) (rows : List Fields) :
    Result (List Fields) :=
  match page.spec.direction with
  | .forward => selectFirst (pageEligible catalog page) (page.spec.limit + 1) rows
  | .backward => do
    let selected ← selectFirst (pageEligible catalog page) (page.spec.limit + 1) rows.reverse
    pure selected.reverse

/-- Cut a page out of the ordered rows. -/
def applyPage (db : Database) (page : PreparedPage) (rows : List Fields) :
    Result (List Fields × PageInfo) := do
  let found ← pageRows db.catalog page rows
  let hasMore := found.length > page.spec.limit
  let forward := page.spec.direction = .forward
  let selected := if hasMore then (if forward then found.dropLast else found.tail) else found
  let resumed := page.boundary.isSome
  let previousCursor ← cursorAt db page .backward (if forward then resumed else hasMore)
    selected.head?
  let nextCursor ← cursorAt db page .forward (if forward then hasMore else resumed)
    selected.getLast?
  pure (selected, {
    limit := page.spec.limit, direction := page.spec.direction
    snapshotSequence := Semantics.sequence db, nextCursor, previousCursor, hasMore })

end UnionId
