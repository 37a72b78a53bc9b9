import UnionId.Engine.Receipts

/-!
# The engine

An engine holds the last committed view of a database together with the durable store
it was opened from, and executes each script as one batch: the statements run on a
private candidate, the candidate is committed to the store, and only then does it become
the committed view. A request asks its environment for what the engine cannot decide
itself: deadlines, the clock, and how the durable commit ends. `Engine.file` is what the
database file (or the snapshot file beside a write-ahead log) holds, whether or not this
engine still has a handle on it.

What a statement does is the executor's; the engine only distinguishes the path that
runs on a complete candidate from the one that runs a single row mutation against the
stored rows. Source positions, profiles and reports are not part of the model, nor are
the storage generations of a running migration.
-/
namespace UnionId.Scripts

open Lib

/-- A database at a commit. -/
structure DatabaseState where
  sequence : ℕ
  schemaRevision : ℕ
  db : Database

structure CommittedView (Detail : Type) where
  db : DatabaseState
  receipts : ReceiptMap Detail

inductive StorageMode where
  | memory
  | legacyWal
  | legacyWalSnapshot
  | redb
  deriving DecidableEq, Repr

/-- The capabilities of an opened store, and the version of its receipt codec. -/
structure Capabilities where
  receiptVersion : UInt16
  generatedDefaults : Bool
  references : Bool
  maps : Bool
  partialIndexes : Bool
  boundedRowMutation : Bool

structure Engine (Detail : Type) where
  committed : CommittedView Detail
  file : CommittedView Detail
  durable : Option Capabilities
  wal : Option (List (ℕ × String))
  snapshot : Bool
  storageMode : StorageMode
  snapshotEvery : ℕ
  writesSinceSnapshot : ℕ
  writeFailed : Bool
  readReopenRequired : Bool
  readOnly : Bool
  snapshotExecution : Bool

/-- How a durable commit ends. The outcome is uncertain if the store cannot tell whether
the transaction was applied. -/
inductive CommitOutcome where
  | committed
  | definite (error : Error)
  | uncertain (applied : Bool) (error : Error)

/-- How an append to the write-ahead log ends; a failed append may have reached the disk. -/
inductive WalOutcome where
  | appended
  | failed (onDisk : Bool)

/-- How a snapshot ends: the file may fail to be written, or the log to be truncated. -/
inductive CheckpointOutcome where
  | saved
  | saveFailed (error : Message)
  | truncateFailed (error : Message)

/-- The answers that one request gets from its environment. -/
structure Environment where
  deadline : ℕ → Result Unit
  clock : Result ℕ
  maintenance : Result Bool
  candidate : Result Unit
  commit : CommitOutcome
  view : Result Unit
  wal : WalOutcome
  checkpoint : CheckpointOutcome

/-- Statement execution. A response that the executor returns is a success, and a row mutation
that succeeds against the stored rows succeeds on a complete candidate with the same effect;
the converse is not assumed, since the bounded path has limits of its own. -/
class Executor (Body Detail : Type) where
  schemaHash : Database → String
  beginGenerationRequest : Database → Database
  execute : DatabaseState → Body → Result (QueryResponse Detail × Database)
  executeBounded : DatabaseState → Body → Result (QueryResponse Detail × Database)
  executeRead : DatabaseState → Body → Result (QueryResponse Detail)
  hasGeneratedDefaults : Database → Bool
  hasReferences : Database → Bool
  requiresMapStorage : Database → Bool
  requiresPartialIndexStorage : Database → Bool
  hasMigrationHistory : Database → Bool
  execute_ok : ∀ {db : DatabaseState} {body : Body} {r : QueryResponse Detail} {db' : Database},
    execute db body = .ok (r, db') → r.ok = true ∧ r.error = none
  executeBounded_ok : ∀ {db : DatabaseState} {body : Body} {r : QueryResponse Detail}
    {db' : Database}, executeBounded db body = .ok (r, db') → r.ok = true ∧ r.error = none
  executeBounded_effect : ∀ {db : DatabaseState} {body : Body} {r : QueryResponse Detail}
    {db' : Database}, executeBounded db body = .ok (r, db') →
    ∃ r', execute db body = .ok (r', db') ∧ r'.affectedRows = r.affectedRows

variable {Body Detail : Type}

/-! ## Commit -/

section Commit
variable [ReceiptEncoding Detail]

/-- Write a snapshot of the committed view and empty the log. -/
def Engine.checkpoint (e : Engine Detail) (env : Environment) : Engine Detail × Result Unit :=
  if e.writeFailed then
    (e, fail .E_STORAGE "checkpoint is disabled after a storage failure; reopen the database")
  else if e.snapshot then
    let saved := { e with file := { e.file with db := e.committed.db } }
    match env.checkpoint with
    | .saveFailed error => (e, fail .E_CHECKPOINT error)
    | .truncateFailed error => (saved, fail .E_CHECKPOINT error)
    | .saved => ({ saved with wal := e.wal.map fun _ => [], writesSinceSnapshot := 0 }, .ok ())
  else (e, .ok ())

/-- Publish a view, and write a snapshot when enough commits have passed. -/
def Engine.publish (e : Engine Detail) (env : Environment) (next : CommittedView Detail)
    (response : QueryResponse Detail) : Engine Detail × QueryResponse Detail :=
  let published := { e with committed := next, writesSinceSnapshot := e.writesSinceSnapshot + 1 }
  if e.snapshotEvery > 0 ∧ published.writesSinceSnapshot ≥ e.snapshotEvery then
    match published.checkpoint env with
    | (e', .ok ()) => (e', response)
    | (e', .error error) =>
      (e', { response with warnings := response.warnings ++ [error.message] })
  else (published, response)

/-- A definite failure of a commit, as the request reports it. -/
def definiteFailure (error : Error) : Error :=
  if error.code = .E_STORAGE_UPGRADE_REQUIRED ∨ error.code = .E_BACKUP_JOURNAL_FULL then error
  else { code := .E_STORAGE, message :=
    "durable transaction aborted before commit; state was not changed: " ++ error.message }

/-- The store checks the receipts before it commits. -/
def durableCommit (env : Environment) (next : CommittedView Detail) : CommitOutcome :=
  match validateReceipts next.receipts next.db.sequence with
  | .error error => .definite error
  | .ok _ => env.commit

/-- Whether the storage mode can hold the candidate at all. -/
def Engine.checkCapabilities (Body : Type) {Detail : Type} [Executor Body Detail]
    (e : Engine Detail) (candidate : Database) : Result Unit :=
  if e.storageMode ≠ .memory ∧ !(e.durable.any fun c => c.generatedDefaults) ∧
      Executor.hasGeneratedDefaults Body Detail candidate then
    fail .E_STORAGE_UPGRADE_REQUIRED
      "generated defaults require native storage capability generated_defaults"
  else if Executor.hasReferences Body Detail candidate ∧ e.storageMode ≠ .memory ∧
      !(e.durable.any fun c => c.references) then
    fail .E_STORAGE_UPGRADE_REQUIRED "typed references require redb storage format 12 or 13"
  else if Executor.requiresMapStorage Body Detail candidate ∧ e.durable.any fun c => !c.maps then
    fail .E_STORAGE_UPGRADE_REQUIRED "durable redb map storage requires format 8"
  else if Executor.requiresPartialIndexStorage Body Detail candidate ∧
      e.durable.any fun c => !c.partialIndexes then
    fail .E_STORAGE_UPGRADE_REQUIRED "partial unique indexes require storage format 10"
  else .ok ()

/-- Make a candidate durable, then publish it. -/
def Engine.commitCandidate (Body : Type) {Detail : Type} [Executor Body Detail]
    [ReceiptEncoding Detail] (e : Engine Detail) (env : Environment) (candidate : DatabaseState)
    (walSource : Option String) (response : QueryResponse Detail)
    (receiptState : Option (ReceiptMap Detail)) :
    Engine Detail × Result (QueryResponse Detail) :=
  match e.checkCapabilities Body candidate.db with
  | .error error => (e, .error error)
  | .ok () =>
    let next : CommittedView Detail := ⟨candidate, receiptState.getD e.committed.receipts⟩
    if e.durable.isSome then
      match durableCommit env next with
      | .committed =>
        match env.view with
        | .ok () => ({ e with file := next }.publish env next response).map id .ok
        | .error _ =>
          ({ e with
              file := next, durable := none, writeFailed := true, readReopenRequired := true },
            fail .E_STORAGE_REOPEN_REQUIRED
              "durable commit succeeded but its read view could not be created")
      | .definite error => (e, .error (definiteFailure error))
      | .uncertain applied _ =>
        ({ e with
            file := if applied then next else e.file
            durable := none
            writeFailed := true },
          fail .E_STORAGE
            "redb commit result is uncertain; state was not published in this process")
    else match e.wal with
      | some log =>
        match walSource with
        | none => (e, fail .E_CONFIG
            "versioned migration commits cannot be represented by the transitional WAL")
        | some source =>
          match env.wal with
          | .appended =>
            ({ e with wal := some (log ++ [(candidate.sequence, source)]) }.publish env next
              response).map id .ok
          | .failed onDisk =>
            ({ e with
                wal := some (if onDisk then log ++ [(candidate.sequence, source)] else log)
                writeFailed := true },
              fail .E_STORAGE
                "WAL commit failed; state was not published, but disk commit may be uncertain")
      | none => (e.publish env next response).map id .ok

end Commit

/-! ## Scripts -/

section Execution
variable [Executor Body Detail]

/-- A script in progress: the candidate, the last response, the summaries so far. -/
structure RunState (Detail : Type) where
  db : Database
  response : QueryResponse Detail
  summaries : List StatementSummary

/-- Execute one statement; `run` is the way statements reach the database. -/
def runStatement (run : Database → Body → Result (QueryResponse Detail × Database))
    (includeSummaries : Bool) (index : ℕ) (state : RunState Detail) :
    Statement Body → Result (RunState Detail)
  | .expect op affected =>
    match state.response.affectedRows with
    | none => fail .E_EXPECTATION_CONTEXT "preceding mutation omitted affected_rows"
    | some actual =>
      if satisfies actual op affected then
        .ok { state with summaries := state.summaries ++ [⟨index, .expect, none⟩] }
      else fail .E_EXPECTATION "mutation affected-row expectation was not satisfied"
  | .run kind body => do
    let (response, db) ← run state.db body
    .ok ⟨db, response, if includeSummaries
      then state.summaries ++ [⟨index, kind, response.affectedRows⟩] else state.summaries⟩

/-- Execute the statements in order; the deadline is checked before each. -/
def runStatements (run : Database → Body → Result (QueryResponse Detail × Database))
    (deadline : ℕ → Result Unit) (includeSummaries : Bool) :
    ℕ → RunState Detail → List (Statement Body) → Result (RunState Detail)
  | _, state, [] => .ok state
  | index, state, statement :: rest => do
    deadline index
    let next ← runStatement run includeSummaries (index + 1) state statement
    runStatements run deadline includeSummaries (index + 1) next rest

/-- A single row mutation, with or without a guard, runs against the stored rows. -/
def Engine.bounded (e : Engine Detail) (statements : List (Statement Body)) : Bool :=
  e.storageMode == .redb && e.durable.any (fun c => c.boundedRowMutation) &&
    match statements with
    | [first] => first.kind.isDml
    | [first, .expect _ _] => first.kind.isDml
    | _ => false

/-- How the statements of a script reach the database. -/
def Engine.run (e : Engine Detail) (statements : List (Statement Body)) (db : Database)
    (body : Body) : Result (QueryResponse Detail × Database) :=
  let state : DatabaseState := { e.committed.db with db }
  if statements.any Statement.isMutating then
    if e.bounded statements then Executor.executeBounded state body
    else Executor.execute state body
  else do
    let response ← Executor.executeRead state body
    .ok (response, db)

/-- Whether a migration generation is unfinished in the store. -/
def Engine.unfinishedMaintenance (e : Engine Detail) (env : Environment) : Result Bool :=
  if e.durable.isSome then env.maintenance else .ok false

def Engine.rejectUnfinishedMaintenance (e : Engine Detail) (env : Environment)
    (message : Message) : Result Unit := do
  let unfinished ← e.unfinishedMaintenance env
  if unfinished then fail .E_MAINTENANCE_REQUIRED message else .ok ()

/-- The checks before a script runs. -/
def Engine.admission (e : Engine Detail) (env : Environment) (statements : List (Statement Body)) :
    Result Unit := do
  let mutating := statements.any Statement.isMutating
  let schemaChanging := statements.any Statement.changesSchema
  preflight statements
  if (e.storageMode = .legacyWal ∨ e.storageMode = .legacyWalSnapshot) ∧
      statements.any (fun s => s.kind = .expect) then
    fail .E_CONFIG
      "affected-row guards require memory or redb; legacy WAL replay does not support them"
  else if e.readReopenRequired then
    fail .E_STORAGE_REOPEN_REQUIRED
      "the durable effect was committed but no matching read view is available"
  else if mutating ∧ e.readOnly then
    fail .E_READ_ONLY "mutating scripts are disabled by the read-only execution boundary"
  else if mutating ∧ e.snapshotExecution then
    fail .E_READ_SNAPSHOT "mutating scripts cannot execute against an immutable read snapshot"
  else if schemaChanging ∧ Executor.hasMigrationHistory Body Detail e.committed.db.db then
    fail .E_MIGRATION
      "schema is managed by the migration ledger; use the versioned migration runner"
  else if mutating ∧ e.writeFailed then
    fail .E_STORAGE
      "writes are disabled after a storage failure; reopen the database to resolve the commit state"
  else if mutating then
    e.rejectUnfinishedMaintenance env
      "ordinary writes are blocked while a migration generation is unfinished"
  else .ok ()

def checkedSucc (n : ℕ) (message : Message) : Result ℕ :=
  if n + 1 ≤ U64_MAX then .ok (n + 1) else fail .E_LIMIT message

/-- A request under an idempotency key. -/
structure PendingIdempotency where
  key : String
  digest : String

def schemaInfo (Body : Type) (Detail : Type) [Executor Body Detail] (db : DatabaseState) :
    SchemaInfo :=
  ⟨db.schemaRevision, Executor.schemaHash Body Detail db.db⟩

/-- The database that a script starts from: a fresh candidate if it can write. -/
def Engine.mutableCandidate (e : Engine Detail) (env : Environment)
    (statements : List (Statement Body)) : Result Database :=
  if statements.any Statement.isMutating then do
    env.candidate
    .ok (Executor.beginGenerationRequest Body Detail e.committed.db.db)
  else .ok e.committed.db.db

/-- A script of several statements reports a summary of each. -/
def includeSummaries (statements : List (Statement Body)) : Bool := statements.length > 1

def checkSummaries (statements : List (Statement Body)) (summaries : List StatementSummary) :
    Result Unit :=
  if includeSummaries statements then validateSummaries summaries else .ok ()

/-- Run the statements of a script on a candidate and check the summaries. -/
def Engine.runScript (e : Engine Detail) (env : Environment) (statements : List (Statement Body)) :
    Result (RunState Detail) := do
  let candidate ← e.mutableCandidate env statements
  let state ← runStatements (e.run statements) env.deadline (includeSummaries statements) 0
    ⟨candidate, .okMessage "ok", []⟩ statements
  checkSummaries statements state.summaries
  env.deadline statements.length
  .ok { state with response := { state.response with statements := state.summaries } }

def Engine.advanceSchemaRevision (e : Engine Detail) (schemaChanging : Bool) : Result ℕ :=
  if schemaChanging then checkedSucc e.committed.db.schemaRevision "schema revision exhausted"
  else .ok e.committed.db.schemaRevision

/-- The candidate at its new sequence and schema revision. -/
def Engine.nextState (e : Engine Detail) (schemaChanging : Bool) (db : Database) :
    Result DatabaseState := do
  let schemaRevision ← e.advanceSchemaRevision schemaChanging
  let sequence ← checkedSucc e.committed.db.sequence "commit sequence exhausted"
  .ok ⟨sequence, schemaRevision, db⟩

/-- The response with its warnings, and the receipts with the one for this request. -/
def Engine.prepareReceipt (Body : Type) {Detail : Type} [Executor Body Detail]
    [ReceiptEncoding Detail] (e : Engine Detail) (env : Environment) (candidate : DatabaseState)
    (response : QueryResponse Detail) :
    Option PendingIdempotency → Result (QueryResponse Detail × Option (ReceiptMap Detail))
  | none => .ok (response, none)
  | some pending => do
    let response := { response with schema := some (schemaInfo Body Detail candidate) }
    let completed ← env.clock
    let receipt ← prepareNewReceipt e.committed.receipts
      ⟨pending.digest, candidate.sequence, completed, response⟩
    .ok ({ response with warnings := receipt.response.warnings },
      some (assocInsert pending.key receipt e.committed.receipts))

/-- Every response carries the schema of the committed view. -/
def Engine.withSchema (Body : Type) {Detail : Type} [Executor Body Detail] (e : Engine Detail)
    (response : QueryResponse Detail) : QueryResponse Detail :=
  { response with schema := some (schemaInfo Body Detail e.committed.db) }

/-- Everything before the commit: what a mutating script would commit. -/
def Engine.prepareScript [ReceiptEncoding Detail] (e : Engine Detail) (env : Environment)
    (statements : List (Statement Body)) (idempotency : Option PendingIdempotency) :
    Result (DatabaseState × QueryResponse Detail × Option (ReceiptMap Detail)) := do
  e.admission env statements
  let state ← e.runScript env statements
  let candidate ← e.nextState (statements.any Statement.changesSchema) state.db
  let (response, receipts) ← e.prepareReceipt Body env candidate state.response idempotency
  .ok (candidate, response, receipts)

/-- Execute a script as one batch. -/
def Engine.tryExecuteStatements [ReceiptEncoding Detail] (e : Engine Detail) (env : Environment)
    (statements : List (Statement Body)) (walSource : Option String)
    (idempotency : Option PendingIdempotency) : Engine Detail × Result (QueryResponse Detail) :=
  if statements.any Statement.isMutating then
    match e.prepareScript env statements idempotency with
    | .error error => (e, .error error)
    | .ok (candidate, response, receipts) =>
      match e.commitCandidate Body env candidate walSource response receipts with
      | (e', .ok response) => (e', .ok (e'.withSchema Body response))
      | (e', .error error) => (e', .error error)
  else (e, do
    e.admission env statements
    let state ← e.runScript env statements
    .ok (e.withSchema Body state.response))

/-- A request as it arrives: the parsed and bound statements, or the error of parsing or
binding them, and the schema that the client expects. -/
structure Request (Body : Type) where
  statements : Result (List (Statement Body))
  source : String
  expectedSchema : Option SchemaInfo

/-- Execute a request, under an idempotency key or without one. -/
def Engine.tryExecuteWithParamsAndIdempotency [ReceiptEncoding Detail] (e : Engine Detail)
    (env : Environment) (request : Request Body) (idempotency : Option PendingIdempotency) :
    Engine Detail × Result (QueryResponse Detail) :=
  if request.expectedSchema.any fun expected =>
      expected ≠ schemaInfo Body Detail e.committed.db then
    (e, fail .E_SCHEMA_CHANGED "request expects another schema revision")
  else match request.statements with
    | .error error => (e, .error error)
    | .ok statements =>
      if idempotency.isSome ∧ !statements.any Statement.isMutating then
        (e, fail .E_IDEMPOTENCY_NOT_MUTATION
          "idempotency keys are only valid for scripts containing a mutation")
      else e.tryExecuteStatements env statements (some request.source) idempotency

/-! ## Requests under a key -/

structure IdempotentExecution (Detail : Type) where
  response : QueryResponse Detail
  replayed : Bool
  digest : String
  committedSequence : ℕ

/-- Report a first execution under a key from the receipt that it published. -/
def acknowledge (key : String) (out : Engine Detail × Result (QueryResponse Detail)) :
    Engine Detail × Result (IdempotentExecution Detail) :=
  (out.1, do
    let response ← out.2
    match out.1.committed.receipts.lookup key with
    | some receipt => .ok ⟨response, false, receipt.digest, receipt.committedSequence⟩
    | none => fail .E_INTERNAL "successful idempotent execution publishes its receipt")

/-- Execute a request under a key, or repeat the response that is stored under it. -/
def Engine.executeIdempotent [ReceiptEncoding Detail] (e : Engine Detail) (env : Environment)
    (key digest : String) (request : Request Body) :
    Engine Detail × Result (IdempotentExecution Detail) :=
  match validateKey key, validateDigest digest with
  | .error error, _ => (e, .error error)
  | .ok (), .error error => (e, .error error)
  | .ok (), .ok () =>
    match e.committed.receipts.lookup key with
    | some receipt =>
      if receipt.digest ≠ digest then
        (e, fail .E_IDEMPOTENCY_CONFLICT
          ("idempotency key has digest " ++ (receipt.digest : Message) ++
            "; new request has digest " ++ digest))
      else (e, .ok ⟨receipt.response, true, receipt.digest, receipt.committedSequence⟩)
    | none =>
      if e.wal.isSome then
        (e, fail .E_CONFIG "idempotent writes require redb or memory mode")
      else
        acknowledge key
          (e.tryExecuteWithParamsAndIdempotency env request (some ⟨key, digest⟩))

/-! ## Other requests -/

structure IdempotencyPruneOptions where
  completedBeforeUnixMs : Option ℕ
  committedThroughSequence : Option ℕ
  maxReceipts : ℕ

def MAX_IDEMPOTENCY_PRUNE_RECEIPTS : ℕ := 1000

/-- Older receipts come first. -/
def receiptBefore (a b : String × IdempotencyReceipt Detail) : Bool :=
  a.2.committedSequence < b.2.committedSequence ||
    (a.2.committedSequence == b.2.committedSequence &&
      (a.2.completedAtUnixMs < b.2.completedAtUnixMs ||
        (a.2.completedAtUnixMs == b.2.completedAtUnixMs && a.1 ≤ b.1)))

def idempotencyPruneSelection (receipts : ReceiptMap Detail) (options : IdempotencyPruneOptions) :
    Result (List String) :=
  if options.completedBeforeUnixMs.isNone ∧ options.committedThroughSequence.isNone then
    fail .E_CONFIG "receipt pruning requires a time or commit-sequence cutoff"
  else if options.maxReceipts = 0 ∨ options.maxReceipts > MAX_IDEMPOTENCY_PRUNE_RECEIPTS then
    fail .E_CONFIG "max_receipts must be between 1 and 1000"
  else
    let selected := receipts.filter fun p =>
      options.completedBeforeUnixMs.all (fun cutoff => p.2.completedAtUnixMs < cutoff) &&
        options.committedThroughSequence.all fun cutoff => p.2.committedSequence ≤ cutoff
    .ok (((selected.mergeSort receiptBefore).take options.maxReceipts).map fun p => p.1)

def ReceiptMap.without (receipts : ReceiptMap Detail) (keys : List String) : ReceiptMap Detail :=
  receipts.filter fun p => !keys.contains p.1

/-- Forget old receipts, in a commit of its own. -/
def Engine.pruneIdempotencyReceipts (Body : Type) {Detail : Type} [Executor Body Detail]
    [ReceiptEncoding Detail] (e : Engine Detail) (env : Environment)
    (options : IdempotencyPruneOptions) : Engine Detail × Result Unit :=
  let selection : Result (List String) :=
    if e.readOnly then
      fail .E_READ_ONLY "idempotency receipts cannot be pruned through a read-only Engine"
    else if e.wal.isSome then
      fail .E_CONFIG "idempotency receipt pruning requires redb or memory mode"
    else if e.writeFailed then
      fail .E_STORAGE "receipt pruning is disabled after a storage failure; reopen the database"
    else do
      e.rejectUnfinishedMaintenance env
        "receipt pruning is blocked while a migration generation is unfinished"
      idempotencyPruneSelection e.committed.receipts options
  match selection with
  | .error error => (e, .error error)
  | .ok [] => (e, .ok ())
  | .ok keys =>
    match env.candidate >>= fun _ => e.nextState false e.committed.db.db with
    | .error error => (e, .error error)
    | .ok candidate =>
      (e.commitCandidate Body env candidate none (.okMessage "idempotency receipts pruned")
        (some (e.committed.receipts.without keys))).map id (Except.map fun _ => ())

/-- Apply a migration in one commit; `migrate` is its effect on the database. -/
def Engine.applyMigration (Body : Type) {Detail : Type} [Executor Body Detail]
    [ReceiptEncoding Detail] (e : Engine Detail) (env : Environment)
    (migrate : Database → Result Database) : Engine Detail × Result Unit :=
  let check : Result DatabaseState :=
    if e.wal.isSome then
      fail .E_CONFIG "versioned migrations require redb or an in-memory Engine"
    else if e.readOnly then
      fail .E_READ_ONLY "migration progress cannot be committed through a read-only Engine"
    else if e.writeFailed then
      fail .E_STORAGE "writes are disabled after a storage failure; reopen the database"
    else do
      env.candidate
      let db ← migrate e.committed.db.db
      e.nextState true db
  match check with
  | .error error => (e, .error error)
  | .ok candidate =>
    (e.commitCandidate Body env candidate none (.okMessage "ok") none).map id
      (Except.map fun _ => ())

/-- Open the database file: the stored receipts are read and checked against the
sequence. -/
def openRedb [ReceiptEncoding Detail] (file : CommittedView Detail) (capabilities : Capabilities) :
    Result (Engine Detail) := do
  let receipts ← loadReceipts capabilities.receiptVersion 0 file.receipts
  let _ ← validateReceipts receipts file.db.sequence
  .ok
    { committed := { file with receipts }
      file
      durable := some capabilities
      wal := none
      snapshot := false
      storageMode := .redb
      snapshotEvery := 0
      writesSinceSnapshot := 0
      writeFailed := false
      readReopenRequired := false
      readOnly := false
      snapshotExecution := false }

/-- Open an engine in memory or on a write-ahead log. `saved` is the content of the
snapshot file and `db` what replaying the log on it gives; neither holds receipts. -/
def openEngine (saved db : DatabaseState) (wal : Option (List (ℕ × String))) (snapshot : Bool)
    (snapshotEvery : ℕ) : Result (Engine Detail) :=
  if snapshot ∧ wal.isNone then fail .E_CONFIG "snapshot requires a WAL path"
  else if snapshotEvery > 0 ∧ !snapshot then
    fail .E_CONFIG "snapshot-every requires a snapshot path"
  else .ok
    { committed := ⟨db, []⟩
      file := ⟨saved, []⟩
      durable := none
      wal
      snapshot
      storageMode := if wal.isNone then .memory
        else if snapshot then .legacyWalSnapshot else .legacyWal
      snapshotEvery
      writesSinceSnapshot := 0
      writeFailed := false
      readReopenRequired := false
      readOnly := false
      snapshotExecution := false }

/-- The requests that can change an engine, each with the answers of its environment, and
opening the database again. -/
inductive Op (Body : Type) where
  | execute (env : Environment) (request : Request Body)
  | executeIdempotent (env : Environment) (key digest : String) (request : Request Body)
  | prune (env : Environment) (options : IdempotencyPruneOptions)
  | migrate (env : Environment) (migrate : Database → Result Database)
  | checkpoint (env : Environment)
  | reopen (capabilities : Capabilities)

/-- The engine after a request. Only a redb database is opened again: there the old engine
is gone, and a new one is built from the file if that succeeds. -/
def Engine.after [ReceiptEncoding Detail] (e : Engine Detail) : Op Body → Engine Detail
  | .execute env request => (e.tryExecuteWithParamsAndIdempotency env request none).1
  | .executeIdempotent env key digest request => (e.executeIdempotent env key digest request).1
  | .prune env options => (e.pruneIdempotencyReceipts Body env options).1
  | .migrate env migrate => (e.applyMigration Body env migrate).1
  | .checkpoint env => (e.checkpoint env).1
  | .reopen capabilities =>
    if e.storageMode = .redb then
      match openRedb e.file capabilities with
      | .ok opened => opened
      | .error _ => e
    else e

end Execution

end UnionId.Scripts
