import UnionId.Query.Page

/-!
# Execution of a pipeline

Rows stream one by one through the leading stages that look at a single row, with
a counter at each cut, and stop when a cut is exhausted. From the first stage that
needs all rows on, the stages run one after the other on lists. A sort that the
index replaces does not stop the stream, and an aggregate that ends the stream
takes the rows as they come.
-/
namespace UnionId

open Lib Catalog

/-! ## Working state -/

/-- Rows kept so far, with their size. -/
structure WorkingRows where
  rows : List Fields
  bytes : ℕ

def workingLimit {α : Type} : Result α :=
  fail .E_LIMIT ("query working state exceeds " ++ toString GENERAL_WORKING_MAX_BYTES ++
    " encoded bytes" : String)

section
variable [External]

/-- The size of the rows, within the limit. -/
def checkMaterializedRows (rows : List Fields) : Result ℕ :=
  let encoded := (rows.map External.rowSize).sum
  if encoded > GENERAL_WORKING_MAX_BYTES then workingLimit else pure encoded

/-- The size of a row in flight, within the limit together with the rows kept. -/
def checkStreamingRowBytes (row : Fields) (residentBytes : ℕ) : Result ℕ :=
  let rowBytes := External.rowSize row
  if residentBytes + rowBytes > GENERAL_WORKING_MAX_BYTES then workingLimit else pure rowBytes

def appendWorkingRow (working : WorkingRows) (row : Fields) : Result WorkingRows := do
  if working.rows.length = MAX_QUERY_WORKING_ROWS then
    fail .E_LIMIT ("query working rows exceed " ++ toString MAX_QUERY_WORKING_ROWS ++
      "; add a selective filter or take" : String)
  let rowBytes ← checkStreamingRowBytes row working.bytes
  pure ⟨working.rows ++ [row], working.bytes + rowBytes⟩

end

/-! ## Streaming -/

/-- The counters of one cut. -/
structure StreamingTakeState where
  seen : ℕ
  emitted : ℕ

/-- Keep the row that comes out, if one does. -/
def emitRow {α σ : Type} (emit : σ → α → Fields → Result σ) (kept : σ) (source : α) :
    Option Fields → Result σ
  | some row => emit kept source row
  | none => pure kept

section
variable [Semantics]

/-- The leading stages, each with its counters. -/
abbrev StreamingStages := List (Stage × StreamingTakeState)

/-- What a stage on single rows makes of one: a row, or nothing. -/
def applyRowStage (catalog : Catalog) (row : Fields) : Stage → Evaluation (Option Fields)
  | .filter expression => return if ← evaluate catalog row expression then some row else none
  | .filterMatch predicate =>
    return if ← Semantics.evaluateMatch catalog row predicate then some row else none
  | .derive name expression outputType =>
    match outputType with
    | none => throw { code := .E_TYPE, message := "derived expression has no bound output type" }
    | some ty => do
      let raw ← evaluateDerive catalog row expression
      let value ← catalog.coerce raw ty (("derive '" ++ name ++ "' result" : String) : Message)
      pure (some (assocInsert name value row))
  | .deriveMatch name arms _ => do
    let value ← Semantics.evaluateMatchArms catalog row arms
    pure (some (assocInsert name value row))
  | .select columns => pure (some (projectRow row columns))
  | _ => pure (some row)

/-- Stages that can make a row larger or smaller. -/
def Stage.reshapes : Stage → Bool
  | .derive .. | .deriveMatch .. | .select _ => true
  | _ => false

variable [External]

/-- A stage on a row in flight. -/
def streamRowStage (catalog : Catalog) (residentBytes : ℕ) (row : Fields) (stage : Stage) :
    Evaluation (Option Fields) := do
  match ← applyRowStage catalog row stage with
  | none => pure none
  | some row =>
    if stage.reshapes then do
      let _ ← checkStreamingRowBytes row residentBytes
      pure (some row)
    else pure (some row)

/-- One row through the stages: the row that comes out, whether a cut is exhausted,
and the counters afterwards. -/
def applyStreamingPrefix (catalog : Catalog) (residentBytes : ℕ) :
    StreamingStages → Fields → (exhausted : Bool) →
      Evaluation (Option Fields × Bool × StreamingStages)
  | [], row, exhausted => pure (some row, exhausted, [])
  | (.take offset limit, state) :: stages, row, exhausted =>
    if state.seen < offset then
      pure (none, exhausted, (.take offset limit, ⟨state.seen + 1, state.emitted⟩) :: stages)
    else if state.emitted ≥ limit then pure (none, true, (.take offset limit, state) :: stages)
    else do
      let (out, exhausted, stages) ← applyStreamingPrefix catalog residentBytes stages row
        (exhausted || state.emitted + 1 = limit)
      pure (out, exhausted, (.take offset limit, ⟨state.seen + 1, state.emitted + 1⟩) :: stages)
  | (stage, state) :: stages, row, exhausted => do
    match ← streamRowStage catalog residentBytes row stage with
    | none => pure (none, exhausted, (stage, state) :: stages)
    | some row => do
      let (out, exhausted, stages) ← applyStreamingPrefix catalog residentBytes stages row exhausted
      pure (out, exhausted, (stage, state) :: stages)

/-- Rows through the stages until a cut is exhausted. `emit` keeps what comes out. -/
def streamRows {α σ : Type} (catalog : Catalog) (fields : α → Fields) (resident : σ → ℕ)
    (emit : σ → α → Fields → Result σ) : StreamingStages → σ → List α → Evaluation σ
  | _, kept, [] => pure kept
  | stages, kept, source :: sources => do
    let (out, exhausted, stages) ← applyStreamingPrefix catalog (resident kept) stages
      (fields source) false
    let kept ← emitRow emit kept source out
    if exhausted then pure kept
    else streamRows catalog fields resident emit stages kept sources

end

/-! ## Stages on lists -/

/-- Rows with what a page stage adds: projections that wait for it, and its
cursors. -/
structure ListState where
  rows : List Fields
  deferred : List (List String)
  page : Option PageInfo

/-- What stays the same while a query runs on lists. -/
structure ListContext where
  access : PlannedAccess
  page : Option PreparedPage
  finalSort : Option ℕ

def projectRows (rows : List Fields) (columns : List String) : List Fields :=
  rows.map (projectRow · columns)

section
variable [Semantics]

/-- A stage on single rows, on all of them. -/
def applyRowStages (catalog : Catalog) (stage : Stage) : List Fields → Evaluation (List Fields)
  | [] => pure []
  | row :: rows => do
    let out ← applyRowStage catalog row stage
    let rows ← applyRowStages catalog stage rows
    pure (out.toList ++ rows)

def aggregateRows (catalog : Catalog) (stage : Dialect.Relational) (rows : List Fields) :
    Result (List Fields) := do
  let groups ← rows.foldlM (Semantics.aggregateOneRow catalog stage)
    (Semantics.newAggregateGroups stage)
  Semantics.finishAggregateGroups catalog stage groups

def relationalRows (db : Database) (source : RowSource) (stage : Dialect.Relational)
    (rows : List Fields) : Result (List Fields) :=
  if Semantics.kind stage = .aggregate then aggregateRows db.catalog stage rows
  else Semantics.applyRelational db source stage rows

def runStage (db : Database) (source : RowSource) (context : ListContext) (position : ℕ)
    (state : ListState) : Stage → Evaluation ListState
  | .relational stage => do
    let rows ← relationalRows db source stage state.rows
    pure { state with rows }
  | .select columns =>
    if context.page.isSome && state.page.isNone && context.finalSort.any (position > ·) then
      pure { state with deferred := state.deferred ++ [columns] }
    else pure { state with rows := projectRows state.rows columns }
  | .sort keys =>
    if context.access.orderedSort ≠ some position then
      return { state with rows := ← sortByTyped db.catalog keys id state.rows }
    else pure state
  | .take offset limit => pure { state with rows := (state.rows.drop offset).take limit }
  | .page _ =>
    match context.page with
    | none => throw { code := .E_INTERNAL, message := "page stage has prepared page metadata" }
    | some page => do
      let (rows, info) ← applyPage db page state.rows
      pure ⟨state.deferred.foldl projectRows rows, [], some info⟩
  | stage => do
    let rows ← applyRowStages db.catalog stage state.rows
    pure { state with rows }

variable [External]

/-- The remaining stages, each followed by a check of the working state. -/
def runStages (db : Database) (source : RowSource) (context : ListContext) :
    ℕ → ListState → List Stage → Evaluation ListState
  | _, state, [] => pure state
  | position, state, stage :: stages => do
    let state ← runStage db source context position state stage
    let _ ← checkMaterializedRows state.rows
    runStages db source context (position + 1) state stages

end

section
variable [External]

/-- Projections that no page stage has claimed. -/
def runDeferred (rows : List Fields) : List (List String) → Result (List Fields)
  | [] => pure rows
  | columns :: deferred => do
    let _ ← checkMaterializedRows (projectRows rows columns)
    runDeferred (projectRows rows columns) deferred

end

/-! ## Queries -/

structure QueryResponse where
  message : String
  rows : List Fields
  columns : List (String × ScalarType)
  page : Option PageInfo

/-- The rows behind the candidates of an index, or all rows. -/
def accessedRows (source : RowSource) (name : String) : Option (List RowId) → Result (List Row)
  | none => source.scanRows name
  | some ids => do
    let rows ← ids.mapM (source.getRow name)
    pure (rows.filterMap id)

section
variable [Semantics]

/-- Whether a stage needs all rows. A replaced sort does not; a projection behind the
final sort of a paged query waits for the page. -/
def blocksStream (context : ListContext) (position : ℕ) : Stage → Bool
  | .relational _ | .page _ => true
  | .sort _ => context.access.orderedSort ≠ some position
  | .select _ => context.page.isSome && context.finalSort.any (position > ·)
  | _ => false

def splitStreaming (context : ListContext) : ℕ → List Stage → List Stage × List Stage
  | _, [] => ([], [])
  | position, stage :: stages =>
    if blocksStream context position stage then ([], stage :: stages)
    else
      let (head, rest) := splitStreaming context (position + 1) stages
      (stage :: head, rest)

/-- An aggregate right behind the streaming stages, with the stages after it. -/
def streamingAggregate : List Stage → Option (Dialect.Relational × List Stage)
  | .relational stage :: rest =>
    if Semantics.kind stage = .aggregate then some (stage, rest) else none
  | _ => none

variable [External]

def runPipeline (db : Database) (source : RowSource) (context : ListContext) (stages : List Stage)
    (rows : List Row) : Evaluation ListState := do
  let split := splitStreaming context 0 stages
  let streaming := split.1.map fun stage => (stage, ⟨0, 0⟩)
  match streamingAggregate split.2 with
  | some (aggregate, rest) => do
    let groups ← streamRows db.catalog Row.fields (fun _ => 0)
      (fun groups _ => Semantics.aggregateOneRow db.catalog aggregate groups) streaming
      (Semantics.newAggregateGroups aggregate) rows
    let rows ← Semantics.finishAggregateGroups db.catalog aggregate groups
    let _ ← checkMaterializedRows rows
    runStages db source context (split.1.length + 1) ⟨rows, [], none⟩ rest
  | none => do
    let kept ← streamRows db.catalog Row.fields WorkingRows.bytes
      (fun kept _ => appendWorkingRow kept) streaming ⟨[], 0⟩ rows
    let _ ← checkMaterializedRows kept.rows
    runStages db source context split.1.length ⟨kept.rows, [], none⟩ split.2

/-- The rows of an access plan, with what the stages know about it. -/
def accessInput (db : Database) (source : RowSource) (pipeline : Pipeline)
    (page : Option PreparedPage) (access : PlannedAccess) : Result (ListContext × List Row) := do
  let candidates ← materializeAccessCandidates db source pipeline page access
  if candidates.any fun ids => ids.length > MAX_QUERY_WORKING_ROWS then
    fail .E_LIMIT ("query needs " ++ toString (candidates.getD []).length ++
      " working rows; limit is " ++ toString MAX_QUERY_WORKING_ROWS ++
      "; add a selective indexed filter" : String)
  let rows ← accessedRows source pipeline.source candidates
  pure (⟨access, page, (lastSort pipeline.stages).map (·.1)⟩, rows)

/-- Run a bound pipeline under an access plan. -/
def executeAccess (db : Database) (source : RowSource) (pipeline : Pipeline) (schema : List Column)
    (page : Option PreparedPage) (access : PlannedAccess) : Result QueryResponse := do
  let (context, rows) ← accessInput db source pipeline page access
  let (state, _) ← runPipeline db source context pipeline.stages rows
    MAX_COLLECTION_PREDICATE_EVALUATIONS
  let rows ← runDeferred state.rows state.deferred
  if rows.length > MAX_RESULT_ROWS then
    fail .E_LIMIT ("query returns " ++ toString rows.length ++ " rows; limit is " ++
      toString MAX_RESULT_ROWS ++ "; add filter or take" : String)
  pure {
    message := toString rows.length ++ " row(s)"
    rows
    columns := schema.map fun column => (column.name, column.ty)
    page := state.page }

/-- The rows that a row sink receives. When all stages stream, rows go to the sink as they
come out and are not kept. -/
def deliverRows (db : Database) (source : RowSource) (context : ListContext) (stages : List Stage)
    (rows : List Row) : Evaluation (List Fields) :=
  let split := splitStreaming context 0 stages
  match split.2 with
  | [] =>
    streamRows db.catalog Row.fields (fun _ => 0) (fun delivered _ row => pure (delivered ++ [row]))
      (split.1.map fun stage => (stage, ⟨0, 0⟩)) [] rows
  | _ :: _ => do
    let state ← runPipeline db source context stages rows
    runDeferred state.rows state.deferred

/-- Run a bound pipeline under an access plan, into a row sink. -/
def executeAccessSink (db : Database) (source : RowSource) (pipeline : Pipeline)
    (page : Option PreparedPage) (access : PlannedAccess) : Result (List Fields) := do
  let (context, rows) ← accessInput db source pipeline page access
  let (delivered, _) ← deliverRows db source context pipeline.stages rows
    MAX_COLLECTION_PREDICATE_EVALUATIONS
  pure delivered

omit [External] in
/-- Resolve a pipeline against a database. -/
def preparePipeline (db : Database) (pipeline : Pipeline) : Result (Pipeline × List Column) := do
  let table ← db.table pipeline.source
  let (stages, schema) ← bindStages db table.schema pipeline.stages
  let bound := { pipeline with stages }
  if stages.any (·.isRelational [.setOperation]) && stages.any (·.isPage) then
    fail .E_PAGE_SHAPE "page cannot be combined with a set operation"
  let _ ← preparePage db bound
  pure (bound, schema)

/-- A query: resolve, plan, execute. -/
def queryFrom (db : Database) (source : RowSource) (pipeline : Pipeline) :
    Result QueryResponse := do
  let (pipeline, schema) ← preparePipeline db pipeline
  let page ← preparePage db pipeline
  let access ← planAccess db source pipeline page
  executeAccess db source pipeline schema page access

end
end UnionId
