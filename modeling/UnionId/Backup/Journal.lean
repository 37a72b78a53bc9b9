import UnionId.Lib.Interruptible
import UnionId.Model.Types

/-!
# The backup journal

While a chain of incremental backups is active, the database keeps the records of
every commit that the archive has not sealed yet: `JournalState` is the durable
summary of that journal and `JournalCommit` the records of one commit. The archive is
a directory with a manifest and content-addressed files. Both are parts of one
`Store`, whose writes are the durable steps of the backup workflow.

Storage layouts, codec versions and the maintenance generations are not part of the
model.
-/
namespace UnionId.Backup

open Lib

def saturatingAdd (a b : ℕ) : ℕ := min (a + b) U64_MAX

/-- A 64-bit addition that fails on overflow. -/
def checkedAdd (a b : ℕ) (e : Error) : Result ℕ := if a + b ≤ U64_MAX then .ok (a + b) else .error e

def HARD_JOURNAL_MAX_COMMITS : ℕ := 100000
def HARD_JOURNAL_MAX_BYTES : ℕ := 1024 * 1024 * 1024
def JOURNAL_CHAIN_ID_MAX_BYTES : ℕ := 256

def chainError (message : String) : Error := { code := .E_BACKUP_CHAIN, message := message }

def archiveError (message : String) : Error := { code := .E_BACKUP_ARCHIVE, message := message }

def limitError (message : String) : Error := { code := .E_LIMIT, message := message }

/-! ## Data -/

/-- The records of one commit: what the commit changed, chained by a checksum to the
commit before it. -/
structure JournalCommit (Delta : Type) where
  sequence : ℕ
  parent : String
  delta : Delta
  checksum : String

structure JournalState where
  chainId : String
  baselineSequence : ℕ
  exportedSequence : ℕ
  exportedChecksum : String
  headChecksum : String
  firstRetainedSequence : Option ℕ
  lastRetainedSequence : Option ℕ
  commitCount : ℕ
  expandedBytes : ℕ
  maxCommits : ℕ
  maxBytes : ℕ
  deriving DecidableEq, Repr

structure BackupJournalConfig where
  chainId : String
  baselineSequence : ℕ
  baselineChecksum : String
  maxCommits : ℕ
  maxBytes : ℕ

inductive BackupJournalState where
  | disabled
  | active
  deriving DecidableEq, Repr

structure BackupJournalStatus where
  state : BackupJournalState
  chainId : Option String
  baselineSequence : Option ℕ
  exportedSequence : Option ℕ
  exportedChecksum : Option String
  headSequence : ℕ
  firstRetainedSequence : Option ℕ
  lastRetainedSequence : Option ℕ
  commitCount : ℕ
  maxCommits : ℕ
  maxBytes : ℕ

inductive ManifestState where
  | prepared
  | active
  | sealed
  deriving DecidableEq, Repr

/-- An archive file as the manifest describes it. -/
structure ManifestArtifact where
  path : String
  firstSequence : ℕ
  lastSequence : ℕ
  parentChecksum : Option String
  payloadChecksum : String
  storedChecksum : String
  storedBytes : ℕ
  expandedBytes : ℕ
  deriving DecidableEq, Repr

structure ArchiveManifest where
  chainId : String
  databaseDigest : String
  state : ManifestState
  baseline : ManifestArtifact
  segments : List ManifestArtifact
  recoverableFirstSequence : ℕ
  recoverableLastSequence : ℕ
  storedBytes : ℕ
  expandedBytes : ℕ
  journalMaxCommits : Option ℕ
  journalMaxBytes : Option ℕ
  checkpointPreviousFirstSequence : Option ℕ
  checkpointRetiredArtifacts : List ManifestArtifact
  deriving DecidableEq, Repr

/-- The frames of an archive: a copy of the database, or journal commits. -/
inductive ArchiveFrames (Image Delta : Type) where
  | baseline (sequence : ℕ) (image : Image)
  | segment (commits : List (JournalCommit Delta))

structure Archive (Image Delta : Type) where
  chainId : String
  databaseDigest : String
  firstSequence : ℕ
  lastSequence : ℕ
  frames : ArchiveFrames Image Delta

/-- What the encoder reports of an archive. -/
structure EncodedArchive where
  payloadChecksum : String
  storedChecksum : String
  storedBytes : ℕ
  expandedBytes : ℕ
  deriving DecidableEq, Repr

/-- What the workflow leaves to its environment: the checksum and the size of the
records of a commit, the archive container with its limits, and the size of an encoded
manifest. -/
class BackupExternal (Image Delta : Type) where
  commitChecksum : String → ℕ → Delta → String
  recordBytes : String → ℕ → Delta → ℕ
  encodeArchive : Archive Image Delta → Result EncodedArchive
  manifestBytes : ArchiveManifest → ℕ

/-- The durable state: the archive directory and the database. -/
structure Store (Image Delta : Type) where
  manifest : Option ArchiveManifest
  files : List (String × Archive Image Delta × EncodedArchive)
  databaseDigest : String
  head : ℕ
  image : Image
  journal : Option JournalState
  records : List (JournalCommit Delta)

variable {Image Delta : Type}

/-- Computations on the store that a crash may cut off between two durable steps. -/
abbrev Workflow (Image Delta : Type) := Interruptible (Store Image Delta) Error

/-! ## Commits -/

section Commits
variable [BackupExternal Image Delta]

/-- The journal after a commit, and the records it gains. -/
def JournalState.prepareJournalAppend (Image : Type) {Delta : Type} [BackupExternal Image Delta]
    (current : JournalState) (sequence : ℕ) (delta : Delta) :
    Result (JournalState × JournalCommit Delta) := do
  let next ← checkedAdd (current.lastRetainedSequence.getD current.exportedSequence) 1
    (limitError "backup journal sequence exhausted")
  if sequence ≠ next then
    .error (chainError "backup journal sequence does not extend its durable head")
  else do
    let checksum := BackupExternal.commitChecksum Image current.headChecksum sequence delta
    let commitCount ← checkedAdd current.commitCount 1
      (limitError "backup journal commit count exhausted")
    let expandedBytes ← checkedAdd current.expandedBytes
      (BackupExternal.recordBytes Image current.headChecksum sequence delta)
      (limitError "backup journal byte count overflow")
    if commitCount > current.maxCommits ∨ expandedBytes > current.maxBytes then
      fail .E_BACKUP_JOURNAL_FULL "backup journal capacity would be exceeded"
    else
      .ok ({ current with
          headChecksum := checksum
          firstRetainedSequence := current.firstRetainedSequence.or (some sequence)
          lastRetainedSequence := some sequence
          commitCount
          expandedBytes },
        ⟨sequence, current.headChecksum, delta, checksum⟩)

/-- A commit of the database: the sequence grows by one and an active journal keeps the
records of the commit. -/
def Store.commit (s : Store Image Delta) (image : Image) (delta : Delta) :
    Result (Store Image Delta) := do
  let sequence ← checkedAdd s.head 1 (limitError "commit sequence exhausted")
  match s.journal with
  | none => .ok { s with head := sequence, image }
  | some journal => do
    let (state, record) ← journal.prepareJournalAppend Image sequence delta
    .ok { s with head := sequence, image, journal := some state, records := s.records ++ [record] }

end Commits

/-! ## Steps on the journal -/

def Store.backupJournalStatus (s : Store Image Delta) : BackupJournalStatus :=
  match s.journal with
  | none => ⟨.disabled, none, none, none, none, s.head, none, none, 0, 0, 0⟩
  | some j => ⟨.active, some j.chainId, some j.baselineSequence, some j.exportedSequence,
      some j.exportedChecksum, s.head, j.firstRetainedSequence, j.lastRetainedSequence,
      j.commitCount, j.maxCommits, j.maxBytes⟩

/-- `sha256:` and 64 lowercase hexadecimal digits. -/
def isCanonicalSha256 (value : String) : Bool :=
  value.utf8ByteSize = 71 && "sha256:".toList.isPrefixOf value.toList &&
    (value.toList.drop 7).all fun c => c.isDigit || ('a' ≤ c && c ≤ 'f')

def validateJournalConfig (config : BackupJournalConfig) (sequence : ℕ) : Result Unit :=
  if config.chainId.utf8ByteSize = 0 || config.chainId.utf8ByteSize > JOURNAL_CHAIN_ID_MAX_BYTES ||
      config.chainId.toList.any fun c => c.val < 32 || (127 ≤ c.val && c.val < 160) then
    .error (chainError "backup chain ID must contain 1..256 non-control UTF-8 bytes")
  else if config.baselineSequence ≠ sequence then
    .error (chainError "baseline sequence does not match database sequence")
  else if !isCanonicalSha256 config.baselineChecksum then
    .error (chainError "baseline checksum must use canonical sha256:<lowercase-hex>")
  else if config.maxCommits = 0 ∨ config.maxCommits > HARD_JOURNAL_MAX_COMMITS ∨
      config.maxBytes = 0 ∨ config.maxBytes > HARD_JOURNAL_MAX_BYTES then
    .error (limitError "backup journal limits must be within the supported range")
  else .ok ()

/-- The state of a journal without records. -/
def BackupJournalConfig.start (config : BackupJournalConfig) : JournalState where
  chainId := config.chainId
  baselineSequence := config.baselineSequence
  exportedSequence := config.baselineSequence
  exportedChecksum := config.baselineChecksum
  headChecksum := config.baselineChecksum
  firstRetainedSequence := none
  lastRetainedSequence := none
  commitCount := 0
  expandedBytes := 0
  maxCommits := config.maxCommits
  maxBytes := config.maxBytes

/-- Start a journal at the current sequence; the same journal may be started again. -/
def enableBackupJournal (config : BackupJournalConfig) : Workflow Image Delta Unit := do
  let s ← Interruptible.read
  Interruptible.lift (validateJournalConfig config s.head)
  match s.journal with
  | some current =>
    Interruptible.ensure (current.chainId = config.chainId ∧
        current.baselineSequence = config.baselineSequence ∧
        current.exportedChecksum = config.baselineChecksum ∧
        current.maxCommits = config.maxCommits ∧ current.maxBytes = config.maxBytes)
      (chainError "another backup journal chain is already active")
  | none => do
    Interruptible.ensure s.records.isEmpty
      (chainError "disabled backup journal contains unexpected records")
    Interruptible.write { s with journal := some config.start }

/-- Drop the journal with its records. -/
def disableBackupJournal (discardUnexported : Bool) : Workflow Image Delta Unit := do
  let s ← Interruptible.read
  match s.journal with
  | none => pure ()
  | some expected => do
    Interruptible.ensure (expected.commitCount = 0 ∨ discardUnexported)
      (chainError "backup journal retains sequences; export them or discard unexported history")
    Interruptible.write { s with journal := none, records := [] }

/-- The journal state without `removed` commits up to a sealed sequence. -/
def JournalState.pruned (expected : JournalState) (throughSequence : ℕ) (commitChecksum : String)
    (removed removedBytes : ℕ) : JournalState :=
  let commitCount := expected.commitCount - removed
  { expected with
    exportedSequence := throughSequence
    exportedChecksum := commitChecksum
    commitCount
    expandedBytes := expected.expandedBytes - removedBytes
    firstRetainedSequence := if commitCount = 0 then none
      else if throughSequence + 1 ≤ U64_MAX then some (throughSequence + 1) else none
    lastRetainedSequence := if commitCount = 0 then none else expected.lastRetainedSequence }

/-- The size of the records of a commit. -/
def JournalCommit.bytes (Image : Type) {Delta : Type} [BackupExternal Image Delta]
    (commit : JournalCommit Delta) : ℕ :=
  BackupExternal.recordBytes Image commit.parent commit.sequence commit.delta

/-- Forget the records that the archive has sealed. -/
def pruneExportedJournal [BackupExternal Image Delta] (throughSequence : ℕ)
    (commitChecksum : String) : Workflow Image Delta Unit := do
  let s ← Interruptible.read
  match s.journal with
  | none => Interruptible.lift (.error (chainError "backup journal is not active"))
  | some expected =>
    if throughSequence ≤ expected.exportedSequence then
      Interruptible.ensure (throughSequence = expected.exportedSequence ∧
          commitChecksum = expected.exportedChecksum)
        (chainError "archive export head conflicts with the database export head")
    else match expected.firstRetainedSequence with
      | none => Interruptible.lift (.error (chainError "journal has no records to prune"))
      | some first => do
        Interruptible.ensure (first = saturatingAdd expected.exportedSequence 1 ∧
            throughSequence ≤ expected.lastRetainedSequence.getD first)
          (chainError "archive export range is not a retained journal prefix")
        let removed := s.records.takeWhile fun r => r.sequence ≤ throughSequence
        Interruptible.ensure (removed.getLast?.map (fun r => r.checksum) = some commitChecksum)
          (chainError "archive export checksum does not match the retained journal prefix")
        let removedBytes := (removed.map fun r => r.bytes Image).sum
        Interruptible.ensure (removed.length ≤ expected.commitCount)
          { code := .E_STORAGE, message := "journal prune commit count underflow" }
        Interruptible.ensure (removedBytes ≤ expected.expandedBytes)
          { code := .E_STORAGE, message := "journal prune byte count underflow" }
        Interruptible.write { s with
          records := s.records.dropWhile fun r => r.sequence ≤ throughSequence
          journal := some (expected.pruned throughSequence commitChecksum removed.length
            removedBytes) }

end UnionId.Backup
