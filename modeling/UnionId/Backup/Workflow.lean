import UnionId.Backup.Journal

/-!
# The incremental backup workflow

`init` starts a chain with a baseline, `export` seals journal commits into segments,
and `checkpoint` replaces the chain by a new baseline. Each of them writes artifacts,
publishes the manifest and moves the journal of the database in separate durable
steps, and starts by finishing what an earlier call left undone. A call that fails ends
between two durable steps, as a call that is cut off does.

Of the reports of the calls the model keeps the data that the chain determines.
-/
namespace UnionId.Backup

open Lib

variable {Image Delta : Type}

def MAX_MANIFEST_BYTES : ℕ := 1024 * 1024

/-! ## The manifest -/

def validateArtifact (artifact : ManifestArtifact) (baseline : Bool) : Result Unit :=
  let expected := if baseline then "baselines/" else "segments/"
  if !expected.toList.isPrefixOf artifact.path.toList ||
      artifact.firstSequence > artifact.lastSequence ||
      !isCanonicalSha256 artifact.payloadChecksum || !isCanonicalSha256 artifact.storedChecksum then
    .error (archiveError "archive manifest artifact metadata is invalid")
  else if baseline ≠ artifact.parentChecksum.isNone ||
      artifact.parentChecksum.any fun c => !isCanonicalSha256 c then
    .error (archiveError "archive manifest artifact parent is invalid")
  else .ok ()

/-- What the check of a manifest knows after a segment. -/
structure ManifestCursor where
  expectedFirst : ℕ
  expectedParent : String
  stored : ℕ
  expanded : ℕ

def ManifestCursor.advance (cursor : ManifestCursor) (segment : ManifestArtifact) :
    Result ManifestCursor := do
  validateArtifact segment false
  if segment.firstSequence ≠ cursor.expectedFirst ||
      segment.parentChecksum ≠ some cursor.expectedParent then
    .error (archiveError "archive manifest segment chain is not contiguous")
  else do
    let expectedFirst ← checkedAdd segment.lastSequence 1 (limitError "archive sequence overflow")
    let stored ← checkedAdd cursor.stored segment.storedBytes
      (limitError "archive stored-byte total overflow")
    let expanded ← checkedAdd cursor.expanded segment.expandedBytes
      (limitError "archive expanded-byte total overflow")
    .ok ⟨expectedFirst, segment.payloadChecksum, stored, expanded⟩

def validateManifest (manifest : ArchiveManifest) : Result Unit := do
  if manifest.chainId.isEmpty || manifest.databaseDigest.isEmpty then
    .error (archiveError "archive manifest identity fields must not be empty")
  else do
    validateArtifact manifest.baseline true
    if manifest.recoverableFirstSequence ≠ manifest.baseline.firstSequence ||
        manifest.baseline.firstSequence ≠ manifest.baseline.lastSequence ||
        manifest.recoverableLastSequence < manifest.recoverableFirstSequence then
      .error (archiveError "archive manifest has an invalid recoverable range")
    else do
      let cursor ← manifest.segments.foldlM ManifestCursor.advance
        ⟨saturatingAdd manifest.baseline.lastSequence 1, manifest.baseline.payloadChecksum,
          manifest.baseline.storedBytes, manifest.baseline.expandedBytes⟩
      let actualLast := (manifest.segments.getLast?.getD manifest.baseline).lastSequence
      if manifest.recoverableLastSequence ≠ actualLast || manifest.storedBytes ≠ cursor.stored ||
          manifest.expandedBytes ≠ cursor.expanded then
        .error (archiveError "archive manifest totals are inconsistent")
      else .ok ()

section Workflow
variable [BackupExternal Image Delta]

def encodeManifest (Image : Type) {Delta : Type} [BackupExternal Image Delta]
    (_ : Store Image Delta) (manifest : ArchiveManifest) : Result Unit := do
  validateManifest manifest
  if BackupExternal.manifestBytes Image Delta manifest > MAX_MANIFEST_BYTES then
    .error (limitError "archive manifest exceeds its byte limit")
  else .ok ()

/-- Replace the manifest in one durable step, if it is still the expected one. -/
def publishManifest (expected : Option ArchiveManifest) (manifest : ArchiveManifest) :
    Workflow Image Delta Unit := do
  let s ← Interruptible.read
  Interruptible.lift (encodeManifest Image s manifest)
  Interruptible.ensure (expected.isSome ∨ s.manifest = none)
    (chainError "archive manifest already exists")
  Interruptible.ensure (expected = none ∨ s.manifest.isSome)
    (chainError "archive manifest disappeared")
  Interruptible.ensure (s.manifest = expected)
    (chainError "archive manifest changed concurrently")
  Interruptible.write { s with manifest := some manifest }

def readManifest : Workflow Image Delta ArchiveManifest := do
  let s ← Interruptible.read
  match s.manifest with
  | none => Interruptible.lift (.error (archiveError "inspect archive manifest"))
  | some manifest => do
    Interruptible.lift (encodeManifest Image s manifest)
    pure manifest

/-! ## Artifacts -/

def checksumSuffix (checksum : String) : String :=
  if "sha256:".toList.isPrefixOf checksum.toList then String.ofList (checksum.toList.drop 7)
  else checksum

/-- Write a file of the archive, or accept the one that is there if it has the same
content. -/
def writeNewArchiveEntry (path : String) (archive : Archive Image Delta)
    (encoded : EncodedArchive) : Workflow Image Delta Unit := do
  let s ← Interruptible.read
  match s.files.lookup path with
  | some (_, existing) =>
    Interruptible.ensure (existing.storedBytes = encoded.storedBytes ∧
        existing.storedChecksum = encoded.storedChecksum)
      (archiveError "archive entry already exists with other content")
  | none => Interruptible.write { s with files := (path, archive, encoded) :: s.files }

def writeOrReuseArchive (path : String) (archive : Archive Image Delta)
    (encoded : EncodedArchive) : Workflow Image Delta Unit := do
  let s ← Interruptible.read
  match s.files.lookup path with
  | some (_, existing) =>
    Interruptible.ensure (existing = encoded)
      (chainError "checkpoint artifact path already contains different bytes")
  | none => writeNewArchiveEntry path archive encoded

def readArtifact (s : Store Image Delta) (artifact : ManifestArtifact) :
    Result (Archive Image Delta) :=
  match s.files.lookup artifact.path with
  | none => .error (archiveError "inspect archive artifact")
  | some (archive, encoded) =>
    if encoded.payloadChecksum ≠ artifact.payloadChecksum ||
        encoded.storedChecksum ≠ artifact.storedChecksum ||
        encoded.expandedBytes ≠ artifact.expandedBytes ||
        encoded.storedBytes ≠ artifact.storedBytes then
      .error (chainError "archive artifact does not match its manifest entry")
    else .ok archive

/-- The header of an archive against the manifest. -/
def validateDecoded (archive : Archive Image Delta) (manifest : ArchiveManifest)
    (artifact : ManifestArtifact) : Result Unit :=
  if archive.chainId ≠ manifest.chainId || archive.databaseDigest ≠ manifest.databaseDigest ||
      archive.firstSequence ≠ artifact.firstSequence ||
      archive.lastSequence ≠ artifact.lastSequence then
    .error (chainError "archive header does not match the manifest")
  else .ok ()

def verifyCommit (Image : Type) {Delta : Type} [BackupExternal Image Delta]
    (expected : ℕ × String) (commit : JournalCommit Delta) : Result (ℕ × String) := do
  if commit.sequence ≠ expected.1 || commit.parent ≠ expected.2 then
    .error (chainError "segment commit sequence or parent checksum is inconsistent")
  else do
    let actual := BackupExternal.commitChecksum Image commit.parent commit.sequence commit.delta
    if commit.checksum ≠ actual then .error (chainError "segment commit checksum mismatch")
    else do
      let next ← checkedAdd expected.1 1 (limitError "archive sequence overflow")
      .ok (next, actual)

/-- The checksum of the last commit of a segment, every commit checked against the one
before it. -/
def verifySegmentCommits (archive : Archive Image Delta) (first : ℕ) (initialParent : String) :
    Result String :=
  match archive.frames with
  | .baseline _ _ => .error (chainError "archive header does not match the manifest")
  | .segment commits => do
    let (_, checksum) ← commits.foldlM (verifyCommit Image) (first, initialParent)
    .ok checksum

def readBaseline (s : Store Image Delta) (manifest : ArchiveManifest) : Result Unit := do
  let baseline ← readArtifact s manifest.baseline
  validateDecoded baseline manifest manifest.baseline
  match baseline.frames with
  | .segment _ => .error (chainError "archive header does not match the manifest")
  | .baseline sequence _ =>
    if sequence ≠ manifest.baseline.firstSequence then
      .error (chainError "baseline meta does not match the manifest")
    else .ok ()

def verifyManifestArtifacts (s : Store Image Delta) (manifest : ArchiveManifest) :
    Result Unit := do
  readBaseline s manifest
  let _ ← manifest.segments.foldlM (fun parent artifact => do
    let decoded ← readArtifact s artifact
    validateDecoded decoded manifest artifact
    verifySegmentCommits decoded decoded.firstSequence parent) manifest.baseline.payloadChecksum
  .ok ()

/-- The archive ends where the database thinks it does. -/
def verifyExportHead (s : Store Image Delta) (manifest : ArchiveManifest)
    (status : BackupJournalStatus) : Result Unit := do
  readBaseline s manifest
  match status.exportedSequence, status.exportedChecksum with
  | some exported, some exportedChecksum =>
    match manifest.segments.getLast? with
    | none =>
      if exported ≠ manifest.baseline.lastSequence ||
          exportedChecksum ≠ manifest.baseline.payloadChecksum then
        .error (chainError "baseline does not match the database export head")
      else .ok ()
    | some tail =>
      if exported ≠ tail.lastSequence then
        .error (chainError "archive and database export heads differ")
      else do
        let decoded ← readArtifact s tail
        validateDecoded decoded manifest tail
        let initialParent ← match decoded.frames with
          | .segment (commit :: _) => .ok commit.parent
          | _ => .error (chainError "segment is missing its first commit")
        let actual ← verifySegmentCommits decoded tail.firstSequence initialParent
        if actual ≠ exportedChecksum then
          .error (chainError "archive tail does not match the database export checksum")
        else .ok ()
  | _, _ => .error (chainError "database has no active export head")

/-! ## Reconciliation -/

def reconcileIdentity (manifest : ArchiveManifest) (status : BackupJournalStatus) : Result Unit :=
  match status.state with
  | .disabled =>
    if manifest.state = .prepared then .ok ()
    else .error (chainError "archive manifest and database backup chain do not match")
  | .active =>
    if status.chainId = some manifest.chainId ∧
        status.baselineSequence = some manifest.baseline.firstSequence then .ok ()
    else .error (chainError "archive manifest and database backup chain do not match")

/-- Forget the journal records of a segment that was published but not pruned. -/
def reconcileExportedPrefix (manifest : ArchiveManifest) (status : BackupJournalStatus) :
    Workflow Image Delta Unit := do
  let s ← Interruptible.read
  match status.exportedSequence with
  | none => Interruptible.lift (.error (chainError "database has no active export head"))
  | some exported =>
    if exported = manifest.recoverableLastSequence then pure ()
    else do
      Interruptible.ensure (exported ≤ manifest.recoverableLastSequence)
        (chainError "database export head is ahead of the archive manifest")
      match manifest.segments.getLast? with
      | none => Interruptible.lift (.error (chainError "archive is ahead without a segment"))
      | some segment => do
        Interruptible.ensure (saturatingAdd exported 1 = segment.firstSequence)
          (chainError "archive/database export reconciliation is not contiguous")
        let checksum ← Interruptible.lift (do
          readBaseline s manifest
          let decoded ← readArtifact s segment
          validateDecoded decoded manifest segment
          verifySegmentCommits decoded segment.firstSequence (status.exportedChecksum.getD ""))
        pruneExportedJournal segment.lastSequence checksum

/-! ## Sources of archives -/

/-- A copy of the database as the baseline of a chain. -/
def Store.incrementalBaselineSource (s : Store Image Delta) (chainId : String) :
    Result (Archive Image Delta) :=
  if s.journal.any fun j => j.commitCount ≠ 0 || j.exportedSequence ≠ s.head then
    .error (chainError
      "checkpoint baseline requires the journal to be exported through the database head")
  else .ok ⟨chainId, s.databaseDigest, s.head, s.head, .baseline s.head s.image⟩

structure JournalSource (Delta : Type) where
  chainId : String
  firstSequence : ℕ
  lastSequence : ℕ
  commits : List (JournalCommit Delta)
  lastCommitChecksum : String

/-- The retained commits up to a sequence. -/
def Store.incrementalJournalSource (s : Store Image Delta) (throughSequence : ℕ) :
    Result (Option (JournalSource Delta)) :=
  match s.journal with
  | none => .error (chainError "backup journal is not active")
  | some state =>
    match state.firstRetainedSequence with
    | none => .ok none
    | some first =>
      if throughSequence < first ||
          throughSequence > state.lastRetainedSequence.getD first then
        .error (chainError "export sequence is outside the retained journal range")
      else
        let commits := s.records.filter fun r => r.sequence ≤ throughSequence
        match commits.getLast? with
        | none => .error (chainError "export range ends inside a journal commit")
        | some last => .ok (some ⟨state.chainId, first, throughSequence, commits, last.checksum⟩)

def JournalSource.archive (source : JournalSource Delta) (databaseDigest : String) :
    Archive Image Delta :=
  ⟨source.chainId, databaseDigest, source.firstSequence, source.lastSequence,
    .segment source.commits⟩

/-! ## Starting a chain -/

structure IncrementalInitOptions where
  journalMaxCommits : ℕ
  journalMaxBytes : ℕ

structure IncrementalInitReport where
  chainId : String
  baselineSequence : ℕ
  resumed : Bool

def journalConfig (manifest : ArchiveManifest) (options : IncrementalInitOptions) :
    BackupJournalConfig :=
  ⟨manifest.chainId, manifest.baseline.firstSequence, manifest.baseline.payloadChecksum,
    options.journalMaxCommits, options.journalMaxBytes⟩

/-- The manifest that a prepared one becomes. -/
def ArchiveManifest.activated (manifest : ArchiveManifest) : ArchiveManifest :=
  { manifest with state := .active, journalMaxCommits := none, journalMaxBytes := none }

def ManifestArtifact.ofArchive (path : String) (archive : Archive Image Delta)
    (parent : Option String) (encoded : EncodedArchive) : ManifestArtifact :=
  ⟨path, archive.firstSequence, archive.lastSequence, parent, encoded.payloadChecksum,
    encoded.storedChecksum, encoded.storedBytes, encoded.expandedBytes⟩

def baselinePath (archive : Archive Image Delta) (encoded : EncodedArchive) : String :=
  "baselines/b-" ++ toString archive.firstSequence ++ "-" ++
    checksumSuffix encoded.payloadChecksum ++ ".uib"

def ArchiveManifest.ofBaseline (chainId databaseDigest : String) (baseline : ManifestArtifact) :
    ArchiveManifest where
  chainId
  databaseDigest
  state := .prepared
  baseline
  segments := []
  recoverableFirstSequence := baseline.firstSequence
  recoverableLastSequence := baseline.lastSequence
  storedBytes := baseline.storedBytes
  expandedBytes := baseline.expandedBytes
  journalMaxCommits := none
  journalMaxBytes := none
  checkpointPreviousFirstSequence := none
  checkpointRetiredArtifacts := []

def validateInitOptions (options : IncrementalInitOptions) : Result Unit :=
  if options.journalMaxCommits = 0 ∨ options.journalMaxBytes = 0 then
    .error (limitError "journal limits must be positive")
  else .ok ()

/-- Start the journal of a prepared chain at its baseline. -/
def enablePrepared (manifest : ArchiveManifest) (options : IncrementalInitOptions)
    (status : BackupJournalStatus) : Workflow Image Delta Unit :=
  if status.state = .disabled then do
    Interruptible.ensure (status.headSequence = manifest.baseline.firstSequence)
      (chainError "database changed after the prepared baseline")
    enableBackupJournal (journalConfig manifest options)
  else pure ()

/-- Finish the start of a chain whose manifest exists. -/
def resumeInit (manifest : ArchiveManifest) (options : IncrementalInitOptions) :
    Workflow Image Delta IncrementalInitReport := do
  let s ← Interruptible.read
  let status := s.backupJournalStatus
  Interruptible.lift (verifyManifestArtifacts s manifest)
  Interruptible.lift (reconcileIdentity manifest status)
  enablePrepared manifest options status
  if manifest.state = .prepared then do
    publishManifest (some manifest) manifest.activated
    pure ⟨manifest.chainId, manifest.baseline.firstSequence, true⟩
  else pure ⟨manifest.chainId, manifest.baseline.firstSequence, false⟩

/-- Start a chain; `chainId` is the random identity it gets. -/
def init (chainId : String) (options : IncrementalInitOptions) :
    Workflow Image Delta IncrementalInitReport := do
  Interruptible.lift (validateInitOptions options)
  let s ← Interruptible.read
  if s.manifest.isSome then do
    let manifest ← readManifest
    resumeInit manifest options
  else do
    Interruptible.ensure (s.backupJournalStatus.state = .disabled)
      (chainError "database has an active chain but the archive has no manifest")
    let source ← Interruptible.lift (s.incrementalBaselineSource chainId)
    let encoded ← Interruptible.lift (BackupExternal.encodeArchive source)
    writeNewArchiveEntry (baselinePath source encoded) source encoded
    let artifact := ManifestArtifact.ofArchive (baselinePath source encoded) source none encoded
    let prepared := ArchiveManifest.ofBaseline chainId source.databaseDigest artifact
    publishManifest none prepared
    enableBackupJournal (journalConfig prepared options)
    publishManifest (some prepared) { prepared with state := .active }
    pure ⟨chainId, artifact.firstSequence, false⟩

/-! ## Sealing commits -/

structure IncrementalExportOptions where
  throughSequence : Option ℕ
  maxCommitsPerSegment : ℕ
  maxExpandedBytesPerSegment : ℕ

def IncrementalExportOptions.default : IncrementalExportOptions := ⟨none, 1000, 64 * 1024 * 1024⟩

structure IncrementalExportReport where
  chainId : String
  firstSequence : Option ℕ
  lastSequence : ℕ
  exportedCommits : ℕ
  createdSegments : ℕ
  storedBytes : ℕ
  expandedBytes : ℕ
  noOp : Bool

def exportReport (manifest : ArchiveManifest) (first : Option ℕ) (commits segments : ℕ)
    (noOp : Bool) : IncrementalExportReport :=
  ⟨manifest.chainId, first, manifest.recoverableLastSequence, commits, segments,
    manifest.storedBytes, manifest.expandedBytes, noOp⟩

def validateExportOptions (options : IncrementalExportOptions) : Result Unit :=
  if options.maxCommitsPerSegment = 0 ∨ options.maxExpandedBytesPerSegment = 0 then
    .error (limitError "segment limits must be positive")
  else .ok ()

/-- Halve the range of a segment until its archive fits or holds one commit. -/
def chooseSegment (s : Store Image Delta) (manifest : ArchiveManifest)
    (options : IncrementalExportOptions) (first : ℕ) :
    ℕ → ℕ → Result (ℕ × JournalSource Delta × EncodedArchive)
  | 0, _ => .error (limitError "fuel")
  | fuel + 1, through => do
    let found ← s.incrementalJournalSource through
    match found with
    | none => .error (chainError "journal ended before the requested export sequence")
    | some source => do
      let archive : Archive Image Delta := source.archive manifest.databaseDigest
      let encoded ← BackupExternal.encodeArchive archive
      if encoded.expandedBytes ≤ options.maxExpandedBytesPerSegment ∨ source.commits.length = 1 then
        .ok (through, source, encoded)
      else chooseSegment s manifest options first fuel (first + (through - first) / 2)

def segmentPath (first through : ℕ) (encoded : EncodedArchive) : String :=
  "segments/s-" ++ toString first ++ "-" ++ toString through ++ "-" ++
    checksumSuffix encoded.payloadChecksum ++ ".uis"

def ArchiveManifest.withSegment (manifest : ArchiveManifest) (first through : ℕ)
    (encoded : EncodedArchive) : ArchiveManifest :=
  let parent := (manifest.segments.getLast?.getD manifest.baseline).payloadChecksum
  { manifest with
    segments := manifest.segments ++ [⟨segmentPath first through encoded, first, through,
      some parent, encoded.payloadChecksum, encoded.storedChecksum, encoded.storedBytes,
      encoded.expandedBytes⟩]
    recoverableLastSequence := through
    storedBytes := saturatingAdd manifest.storedBytes encoded.storedBytes
    expandedBytes := saturatingAdd manifest.expandedBytes encoded.expandedBytes }

/-- Seal segments up to `target`: for each write the file, publish the manifest and
prune the journal. -/
def exportSegments (options : IncrementalExportOptions) (target : ℕ) :
    ℕ → ArchiveManifest → ℕ → ℕ → Workflow Image Delta (ArchiveManifest × ℕ × ℕ)
  | 0, _, _, _ => Interruptible.lift (.error (limitError "fuel"))
  | fuel + 1, manifest, commits, segments =>
    if target ≤ manifest.recoverableLastSequence then pure (manifest, commits, segments)
    else do
      let first := manifest.recoverableLastSequence + 1
      let byCount := saturatingAdd first (options.maxCommitsPerSegment - 1)
      let s ← Interruptible.read
      let (through, source, encoded) ← Interruptible.lift
        (chooseSegment s manifest options first (fuel + 1) (min target byCount))
      Interruptible.ensure (source.firstSequence = first)
        (chainError "journal export does not continue the manifest")
      writeNewArchiveEntry (segmentPath first through encoded)
        (source.archive manifest.databaseDigest) encoded
      publishManifest (some manifest) (manifest.withSegment first through encoded)
      pruneExportedJournal through source.lastCommitChecksum
      let manifest ← readManifest
      exportSegments options target fuel manifest (saturatingAdd commits source.commits.length)
        (saturatingAdd segments 1)

/-- A prepared manifest becomes active before an export. -/
def activatePrepared : Workflow Image Delta ArchiveManifest := do
  let manifest ← readManifest
  if manifest.state = .prepared then do
    let s ← Interruptible.read
    Interruptible.lift (reconcileIdentity manifest s.backupJournalStatus)
    publishManifest (some manifest) manifest.activated
    readManifest
  else pure manifest

/-- Seal the commits of the journal, up to the requested sequence. -/
def exportChain (options : IncrementalExportOptions) (fuel : ℕ) :
    Workflow Image Delta IncrementalExportReport := do
  Interruptible.lift (validateExportOptions options)
  let manifest ← activatePrepared
  Interruptible.ensure (manifest.state = .active)
    (chainError "incremental export requires an active archive")
  let s ← Interruptible.read
  reconcileExportedPrefix manifest s.backupJournalStatus
  let s ← Interruptible.read
  let status := s.backupJournalStatus
  Interruptible.lift (verifyExportHead s manifest status)
  Interruptible.lift (reconcileIdentity manifest status)
  let availableLast := status.lastRetainedSequence.getD
    (status.exportedSequence.getD manifest.recoverableLastSequence)
  let target := options.throughSequence.getD availableLast
  Interruptible.ensure (target ≤ status.headSequence ∧ target ≤ availableLast)
    (chainError "--through-sequence is beyond the committed journal head")
  if target ≤ manifest.recoverableLastSequence then
    pure (exportReport manifest none 0 0 true)
  else do
    let firstExported := if manifest.recoverableLastSequence + 1 ≤ U64_MAX
      then some (manifest.recoverableLastSequence + 1) else none
    let (last, commits, segments) ← exportSegments options target fuel manifest 0 0
    pure (exportReport last firstExported commits segments false)

/-! ## A new baseline -/

structure IncrementalCheckpointReport where
  chainId : String
  previousFirstSequence : ℕ
  recoverableFirstSequence : ℕ
  recoverableLastSequence : ℕ
  retiredArtifacts : ℕ
  retiredBytes : ℕ
  resumed : Bool

/-- The manifest with a new baseline, prepared for the switch of the journal. -/
def ArchiveManifest.checkpointed (old : ArchiveManifest) (baseline : ManifestArtifact)
    (status : BackupJournalStatus) : ArchiveManifest :=
  { old with
    state := .prepared
    baseline
    segments := []
    recoverableFirstSequence := baseline.firstSequence
    recoverableLastSequence := baseline.lastSequence
    storedBytes := baseline.storedBytes
    expandedBytes := baseline.expandedBytes
    journalMaxCommits := some status.maxCommits
    journalMaxBytes := some status.maxBytes
    checkpointPreviousFirstSequence := some old.recoverableFirstSequence
    checkpointRetiredArtifacts :=
      (old.baseline :: old.segments).filter fun artifact => artifact.path ≠ baseline.path }

def checkpointJournalConfig (manifest : ArchiveManifest) : Result BackupJournalConfig :=
  match manifest.journalMaxCommits, manifest.journalMaxBytes with
  | none, _ => .error (chainError "prepared checkpoint is missing its journal commit limit")
  | some _, none => .error (chainError "prepared checkpoint is missing its journal byte limit")
  | some maxCommits, some maxBytes => .ok ⟨manifest.chainId, manifest.baseline.firstSequence,
      manifest.baseline.payloadChecksum, maxCommits, maxBytes⟩

/-- End the journal of the old baseline. -/
def retireJournal (prepared : ArchiveManifest) (status : BackupJournalStatus) :
    Workflow Image Delta Unit :=
  if status.state = .active ∧
      status.baselineSequence ≠ some prepared.baseline.firstSequence then do
    Interruptible.ensure (status.chainId = some prepared.chainId ∧ status.commitCount = 0 ∧
        status.exportedSequence = some prepared.baseline.firstSequence)
      (chainError "checkpoint does not match the active exported journal")
    disableBackupJournal false
  else pure ()

/-- Start the journal of the new baseline. -/
def restartJournal (prepared : ArchiveManifest) (status : BackupJournalStatus) :
    Workflow Image Delta Unit :=
  if status.state = .disabled then do
    let config ← Interruptible.lift (checkpointJournalConfig prepared)
    enableBackupJournal config
  else pure ()

/-- Move the journal to the prepared baseline and activate the manifest. -/
def finishCheckpoint (prepared : ArchiveManifest) :
    Workflow Image Delta IncrementalCheckpointReport := do
  let s ← Interruptible.read
  Interruptible.lift (verifyManifestArtifacts s prepared)
  retireJournal prepared s.backupJournalStatus
  let s ← Interruptible.read
  restartJournal prepared s.backupJournalStatus
  let s ← Interruptible.read
  Interruptible.lift (reconcileIdentity prepared s.backupJournalStatus)
  publishManifest (some prepared) { prepared.activated with
    checkpointPreviousFirstSequence := none
    checkpointRetiredArtifacts := [] }
  let retired := prepared.checkpointRetiredArtifacts
  pure ⟨prepared.chainId,
    prepared.checkpointPreviousFirstSequence.getD prepared.recoverableFirstSequence,
    prepared.recoverableFirstSequence, prepared.recoverableLastSequence, retired.length,
    retired.foldl (fun total artifact => saturatingAdd total artifact.storedBytes) 0, false⟩

/-- Write a new baseline at the database head and prepare the switch to it. -/
def prepareCheckpoint : Workflow Image Delta ArchiveManifest := do
  let s ← Interruptible.read
  let status := s.backupJournalStatus
  let old ← readManifest
  Interruptible.lift (reconcileIdentity old status)
  Interruptible.ensure (status.commitCount = 0 ∧
      status.exportedSequence = some status.headSequence)
    (chainError "checkpoint requires export through the database head")
  let source ← Interruptible.lift (s.incrementalBaselineSource old.chainId)
  let encoded ← Interruptible.lift (BackupExternal.encodeArchive source)
  writeOrReuseArchive (baselinePath source encoded) source encoded
  let baseline := ManifestArtifact.ofArchive (baselinePath source encoded) source none encoded
  let prepared := old.checkpointed baseline status
  publishManifest (some old) prepared
  pure prepared

/-- Replace the chain by a new baseline, or finish a replacement that was cut off. -/
def checkpoint (fuel : ℕ) : Workflow Image Delta IncrementalCheckpointReport := do
  let manifest ← readManifest
  if manifest.state = .prepared ∧ manifest.journalMaxCommits.isSome then do
    let report ← finishCheckpoint manifest
    pure { report with resumed := true }
  else do
    let _ ← exportChain IncrementalExportOptions.default fuel
    let prepared ← prepareCheckpoint
    finishCheckpoint prepared

end Workflow

end UnionId.Backup
