import UnionId.Backup.Workflow
import UnionId.Lib.Fallible

/-!
# The backup chain has no gap

Between calls the database commits, and every call may be cut off after any of its
durable steps. `Reaches` is the reachability of this system. What a reader of the
archive relies on is `Chained`: the segments of the manifest follow one another from
the baseline, and as long as the manifest is active the journal of the same chain
retains every commit that is not sealed yet.

An export activates a prepared manifest although the journal of the database is
disabled, which a cut-off `init` or `checkpoint` leaves behind; the chain then loses
every later commit. `chained_of_reaches` is the guarantee for runs without such an
export.
-/
namespace UnionId.Backup

open Lib List

variable {Image Delta : Type}

/-! ## The system -/

/-- What may happen to the store while no call is running. -/
inductive Event (Image Delta : Type) where
  | commit (image : Image) (delta : Delta)
  | init (chainId : String) (options : IncrementalInitOptions)
  | exportChain (options : IncrementalExportOptions) (fuel : ℕ)
  | checkpoint (fuel : ℕ)

/-- The states that an event can leave. A call leaves the state after any of its
durable steps. -/
def Event.leaves [BackupExternal Image Delta] (s : Store Image Delta) :
    Event Image Delta → List (Store Image Delta)
  | .commit image delta =>
    match s.commit image delta with
    | .ok t => [t]
    | .error _ => [s]
  | .init chainId options => s :: (Backup.init chainId options s).visited
  | .exportChain options fuel => s :: (Backup.exportChain options fuel s).visited
  | .checkpoint fuel => s :: (Backup.checkpoint fuel s).visited

/-- The states reachable through events that are allowed where they happen. -/
inductive Reaches [BackupExternal Image Delta]
    (allowed : Event Image Delta → Store Image Delta → Prop) (s : Store Image Delta) :
    Store Image Delta → Prop
  | refl : Reaches allowed s s
  | step {t u : Store Image Delta} {e : Event Image Delta} (h : Reaches allowed s t)
      (he : allowed e t) (hu : u ∈ e.leaves t) : Reaches allowed s u

/-- Segments that follow one another, from the commit after `first` to `last`. -/
def ContiguousFrom (first : ℕ) : List ManifestArtifact → ℕ → Prop
  | [], last => last = first
  | segment :: segments, last => segment.firstSequence = first + 1 ∧
      segment.firstSequence ≤ segment.lastSequence ∧
      ContiguousFrom segment.lastSequence segments last

def ArchiveManifest.Contiguous (m : ArchiveManifest) : Prop :=
  m.baseline.firstSequence = m.baseline.lastSequence ∧
    ContiguousFrom m.baseline.lastSequence m.segments m.recoverableLastSequence

/-- What the chain guarantees. -/
structure Chained (s : Store Image Delta) : Prop where
  contiguous : ∀ m, s.manifest = some m → m.Contiguous
  retained : ∀ m, s.manifest = some m → m.state = .active → ∃ j, s.journal = some j ∧
    j.chainId = m.chainId ∧ j.baselineSequence = m.baseline.firstSequence ∧
    ∀ n, m.recoverableLastSequence < n → n ≤ s.head → ∃ r ∈ s.records, r.sequence = n

/-- A database without a journal next to an empty archive. -/
structure Fresh (s : Store Image Delta) : Prop where
  manifest : s.manifest = none
  journal : s.journal = none
  records : s.records = []
  head : s.head ≤ U64_MAX

/-- A prepared manifest whose journal has not been started. -/
def Unstarted (s : Store Image Delta) : Prop :=
  s.journal = none ∧ ∃ m, s.manifest = some m ∧ m.state = .prepared

/-- No export runs before the journal of a prepared manifest is started. A checkpoint
exports first unless it resumes a checkpoint that was cut off. -/
def Guarded (e : Event Image Delta) (s : Store Image Delta) : Prop :=
  match e with
  | .exportChain _ _ => ¬Unstarted s
  | .checkpoint _ => ¬Unstarted s ∨ ∃ m, s.manifest = some m ∧ m.journalMaxCommits.isSome
  | _ => True

/-! ## The invariant -/

/-- The journal holds one record for each commit after the exported one. -/
structure JournalState.Sound (j : JournalState) (head : ℕ) (records : List (JournalCommit Delta)) :
    Prop where
  sequences : records.map (fun r => r.sequence) =
    List.range' (j.exportedSequence + 1) j.commitCount
  head_eq : head = j.exportedSequence + j.commitCount
  first : j.firstRetainedSequence =
    if j.commitCount = 0 then none else some (j.exportedSequence + 1)
  last : j.lastRetainedSequence = if j.commitCount = 0 then none else some head

structure Sound (s : Store Image Delta) : Prop where
  head : s.head ≤ U64_MAX
  journal : ∀ j, s.journal = some j → j.Sound s.head s.records
  disabled : s.journal = none → s.records = []
  contiguous : ∀ m, s.manifest = some m → m.Contiguous
  exported : ∀ m j, s.manifest = some m → s.journal = some j →
    j.baselineSequence = m.baseline.firstSequence → j.exportedSequence ≤ m.recoverableLastSequence
  active : ∀ m, s.manifest = some m → m.state = .active → ∃ j, s.journal = some j ∧
    j.chainId = m.chainId ∧ j.baselineSequence = m.baseline.firstSequence

variable {first last : ℕ} {segments : List ManifestArtifact}

theorem ContiguousFrom.le (h : ContiguousFrom first segments last) : first ≤ last := by
  induction segments generalizing first with
  | nil => exact le_of_eq h.symm
  | cons segment segments ih =>
    obtain ⟨hfirst, hle, hrest⟩ := h
    have hlast := ih hrest
    omega

variable {segment : ManifestArtifact}

theorem ContiguousFrom.append {through : ℕ} (h : ContiguousFrom first segments last)
    (hfirst : segment.firstSequence = last + 1) (hle : segment.firstSequence ≤ segment.lastSequence)
    (hlast : segment.lastSequence = through) :
    ContiguousFrom first (segments ++ [segment]) through := by
  induction segments generalizing first with
  | nil =>
    cases h
    exact ⟨hfirst, hle, hlast.symm⟩
  | cons a segments ih =>
    obtain ⟨ha, hale, hrest⟩ := h
    exact ⟨ha, hale, ih hrest⟩

theorem ContiguousFrom.getLast (h : ContiguousFrom first segments last)
    (hlast : segments.getLast? = some segment) : segment.lastSequence = last := by
  induction segments generalizing first with
  | nil => cases hlast
  | cons a segments ih =>
    obtain ⟨-, -, hrest⟩ := h
    cases segments with
    | nil =>
      cases hlast
      exact hrest.symm
    | cons b segments => exact ih hrest hlast

theorem ArchiveManifest.Contiguous.le {m : ArchiveManifest} (h : m.Contiguous) :
    m.baseline.firstSequence ≤ m.recoverableLastSequence := by
  have hle := h.2.le
  have hsame := h.1
  omega

/-- **The invariant keeps the promise of the chain.** -/
theorem Sound.chained {s : Store Image Delta} (h : Sound s) : Chained s := by
  refine ⟨h.contiguous, fun m hm hactive => ?_⟩
  obtain ⟨j, hj, hchain, hbaseline⟩ := h.active m hm hactive
  refine ⟨j, hj, hchain, hbaseline, fun n hn hhead => ?_⟩
  have hsound := h.journal j hj
  have hexported := h.exported m j hm hj hbaseline
  have hle := hsound.head_eq
  have hmem : n ∈ s.records.map fun r => r.sequence := by
    rw [hsound.sequences, mem_range'_1]
    omega
  obtain ⟨r, hr, hseq⟩ := mem_map.mp hmem
  exact ⟨r, hr, hseq⟩

theorem Fresh.sound {s : Store Image Delta} (h : Fresh s) : Sound s where
  head := h.head
  journal j hj := by rw [h.journal] at hj; cases hj
  disabled _ := h.records
  contiguous m hm := by rw [h.manifest] at hm; cases hm
  exported m j hm := by rw [h.manifest] at hm; cases hm
  active m hm := by rw [h.manifest] at hm; cases hm

/-! ## Commits -/

section Steps
variable [BackupExternal Image Delta] {s t : Store Image Delta}

theorem checkedAdd_eq_ok {a b c : ℕ} {e : Error} (h : checkedAdd a b e = .ok c) :
    c = a + b ∧ c ≤ U64_MAX := by
  unfold checkedAdd at h
  split at h
  · cases h
    exact ⟨rfl, ‹_›⟩
  · cases h

variable {delta : Delta}

theorem prepareJournalAppend_eq_ok {j j' : JournalState} {sequence : ℕ}
    {record : JournalCommit Delta}
    (h : j.prepareJournalAppend Image sequence delta = .ok (j', record)) :
    record.sequence = sequence ∧ j'.chainId = j.chainId ∧
      j'.baselineSequence = j.baselineSequence ∧ j'.exportedSequence = j.exportedSequence ∧
      j'.commitCount = j.commitCount + 1 ∧
      j'.firstRetainedSequence = j.firstRetainedSequence.or (some sequence) ∧
      j'.lastRetainedSequence = some sequence := by
  unfold JournalState.prepareJournalAppend at h
  obtain ⟨next, -, h⟩ := of_bind h
  obtain ⟨-, h⟩ := of_refused h
  obtain ⟨count, hcount, bytes, -, h⟩ := of_bind₂ h
  obtain ⟨rfl, -⟩ := checkedAdd_eq_ok hcount
  obtain ⟨-, h⟩ := of_refused h
  cases h
  exact ⟨rfl, rfl, rfl, rfl, rfl, rfl, rfl⟩

theorem Sound.commit {image : Image} (h : Sound s)
    (hcommit : s.commit image delta = .ok t) : Sound t := by
  unfold Store.commit at hcommit
  obtain ⟨sequence, hseq, hcommit⟩ := of_bind hcommit
  obtain ⟨rfl, hmax⟩ := checkedAdd_eq_ok hseq
  split at hcommit
  · rename_i hnone
    cases hcommit
    refine ⟨hmax, fun j hj => ?_, h.disabled, h.contiguous, h.exported, h.active⟩
    exact absurd (hnone.symm.trans hj) (by simp)
  · rename_i journal hjournal
    obtain ⟨⟨state, record⟩, happend, rfl⟩ := of_bind_pure hcommit
    obtain ⟨hrecord, hchain, hbaseline, hexported, hcount, hfirst, hlast⟩ :=
      prepareJournalAppend_eq_ok happend
    have hsound := h.journal journal hjournal
    have hhead := hsound.head_eq
    refine ⟨hmax, fun j hj => ?_, fun hj => absurd hj (by simp), h.contiguous,
      fun m j hm hj hb => ?_, fun m hm hactive => ?_⟩
    · cases hj
      refine ⟨?_, ?_, ?_, ?_⟩
      · rw [map_append, hsound.sequences, hexported, hcount, List.range'_1_concat,
          map_singleton, hrecord, hhead]
        congr 2
        omega
      · simp only
        omega
      · rw [hfirst, hsound.first, hcount, hexported]
        by_cases hzero : journal.commitCount = 0
        · simp only [hzero, if_true, Option.none_or, Nat.add_eq_zero_iff, one_ne_zero, and_false,
            if_false, Option.some.injEq]
          omega
        · simp [hzero]
      · rw [hlast, hcount]
        simp
    · cases hj
      rw [hbaseline] at hb
      rw [hexported]
      exact h.exported m journal hm hjournal hb
    · obtain ⟨j, hj, hc, hb⟩ := h.active m hm hactive
      obtain rfl : journal = j := Option.some.inj (hjournal.symm.trans hj)
      exact ⟨state, rfl, hchain.trans hc, hbaseline.trans hb⟩

end Steps

/-! ## Durable steps -/

section Durable
variable {s : Store Image Delta}

/-- Archive files do not matter to the chain. -/
theorem Sound.withFiles (h : Sound s)
    (files : List (String × Archive Image Delta × EncodedArchive)) :
    Sound { s with files } :=
  ⟨h.head, h.journal, h.disabled, h.contiguous, h.exported, h.active⟩

/-- A manifest may be published if it fits the journal. -/
theorem Sound.withManifest (h : Sound s) {m : ArchiveManifest} (hcontiguous : m.Contiguous)
    (hexported : ∀ j, s.journal = some j → j.baselineSequence = m.baseline.firstSequence →
      j.exportedSequence ≤ m.recoverableLastSequence)
    (hactive : m.state = .active → ∃ j, s.journal = some j ∧ j.chainId = m.chainId ∧
      j.baselineSequence = m.baseline.firstSequence) : Sound { s with manifest := some m } := by
  refine ⟨h.head, h.journal, h.disabled, fun m' hm' => ?_, fun m' j hm' => ?_, fun m' hm' => ?_⟩
  · cases hm'
    exact hcontiguous
  · cases hm'
    exact hexported j
  · cases hm'
    exact hactive

theorem Sound.start (h : Sound s) (hnone : s.journal = none) {config : BackupJournalConfig}
    (hhead : config.baselineSequence = s.head) : Sound { s with journal := some config.start } := by
  refine ⟨h.head, fun j hj => ?_, fun hj => (by cases hj), h.contiguous, fun m j hm hj hb => ?_,
    fun m hm hactive => ?_⟩
  · cases hj
    refine ⟨?_, hhead.symm, rfl, rfl⟩
    rw [h.disabled hnone]
    rfl
  · cases hj
    have hle := (h.contiguous m hm).le
    have hb : config.baselineSequence = m.baseline.firstSequence := hb
    change config.baselineSequence ≤ _
    omega
  · obtain ⟨j, hj, -⟩ := h.active m hm hactive
    rw [hnone] at hj
    cases hj

theorem Sound.disable (h : Sound s) {m : ArchiveManifest} (hm : s.manifest = some m)
    (hstate : m.state ≠ .active) : Sound { s with journal := none, records := [] } := by
  refine ⟨h.head, fun j hj => (by cases hj), fun _ => rfl, h.contiguous,
    fun m' j hm' hj => (by cases hj), fun m' hm' hactive => ?_⟩
  obtain rfl : m = m' := Option.some.inj (hm.symm.trans hm')
  exact absurd hactive hstate

/-- Numbered records up to a number are a prefix of the records. -/
theorem split_sequences {l : List (JournalCommit Delta)} {a c : ℕ} (through : ℕ)
    (h : l.map (fun r => r.sequence) = List.range' a c) (ha : a ≤ through + 1)
    (hc : through < a + c) : (l.takeWhile fun r => r.sequence ≤ through).length = through + 1 - a ∧
      (l.dropWhile fun r => r.sequence ≤ through).map (fun r => r.sequence) =
        List.range' (through + 1) (a + c - (through + 1)) := by
  induction c generalizing l a with
  | zero =>
    obtain rfl : l = [] := by simpa using h
    have hzero : through + 1 - a = 0 := by omega
    have hnone : a + 0 - (through + 1) = 0 := by omega
    rw [hzero, hnone]
    exact ⟨rfl, rfl⟩
  | succ c ih =>
    cases l with
    | nil => cases h
    | cons r l =>
      rw [map_cons, List.range'_succ, List.cons.injEq] at h
      obtain ⟨hr, hl⟩ := h
      by_cases hle : a ≤ through
      · obtain ⟨htake, hdrop⟩ := ih hl (by omega) (by omega)
        have hkeep : decide (r.sequence ≤ through) = true := by simp [hr, hle]
        rw [takeWhile_cons_of_pos (by exact hkeep), dropWhile_cons_of_pos (by exact hkeep),
          length_cons, htake, hdrop]
        exact ⟨by omega, by congr 1; omega⟩
      · have hdrop : ¬decide (r.sequence ≤ through) = true := by simp [hr]; omega
        rw [takeWhile_cons_of_neg (by exact hdrop), dropWhile_cons_of_neg (by exact hdrop)]
        have hstart : through + 1 = a := by omega
        refine ⟨by simp; omega, ?_⟩
        rw [map_cons, hr, hl, hstart, ← List.range'_succ]
        congr 1
        omega

/-- Forgetting sealed records keeps the invariant. -/
theorem Sound.prune (h : Sound s) {j : JournalState} (hj : s.journal = some j) {through : ℕ}
    {checksum : String} {bytes : ℕ} (hgt : j.exportedSequence < through) (hle : through ≤ s.head)
    (hsealed : ∀ m, s.manifest = some m → through ≤ m.recoverableLastSequence) : Sound { s with
      records := s.records.dropWhile fun r => r.sequence ≤ through
      journal := some (j.pruned through checksum
        (s.records.takeWhile fun r => r.sequence ≤ through).length bytes) } := by
  have hsound := h.journal j hj
  have hhead := hsound.head_eq
  obtain ⟨htake, hdrop⟩ := split_sequences through hsound.sequences (by omega)
    (by omega)
  have hcount : j.commitCount - (s.records.takeWhile fun r => r.sequence ≤ through).length =
      s.head - through := by omega
  refine ⟨h.head, fun j' hj' => ?_, fun hj' => (by cases hj'), h.contiguous,
    fun m j' hm hj' hb => ?_, fun m hm hactive => ?_⟩
  · cases hj'
    refine ⟨?_, ?_, ?_, ?_⟩
    · simp only [JournalState.pruned, hcount]
      rw [hdrop]
      congr 1
      omega
    · simp only [JournalState.pruned, hcount]
      omega
    · simp only [JournalState.pruned, hcount]
      by_cases hzero : s.head - through = 0
      · simp [hzero]
      · have hmax : through + 1 ≤ U64_MAX := by
          have := h.head
          omega
        simp [hzero, hmax]
    · simp only [JournalState.pruned, hcount, hsound.last]
      by_cases hzero : s.head - through = 0
      · simp [hzero]
      · have hsome : j.commitCount ≠ 0 := by omega
        simp [hzero, hsome]
  · cases hj'
    exact hsealed m hm
  · obtain ⟨j', hj', hchain, hbaseline⟩ := h.active m hm hactive
    obtain rfl : j = j' := Option.some.inj (hj.symm.trans hj')
    exact ⟨_, rfl, hchain, hbaseline⟩

end Durable

/-! ## The workflow -/

section Workflow
variable {s : Store Image Delta} {Q : Unit → Store Image Delta → Prop}

/-- Starting a journal starts the requested one. -/
theorem upholds_enableBackupJournal {config : BackupJournalConfig} (h : Sound s)
    (hQ : ∀ t j, Sound t → t.manifest = s.manifest → t.journal = some j →
      j.chainId = config.chainId → j.baselineSequence = config.baselineSequence → Q () t) :
    Upholds Sound (enableBackupJournal config) s Q := by
  refine .read_bind (.lift_bind fun _ hconfig => ?_)
  cases hj : s.journal with
  | some current => exact .ensure fun hsame => hQ s current h rfl hj hsame.1 hsame.2.1
  | none =>
    have hhead : config.baselineSequence = s.head := by
      unfold validateJournalConfig at hconfig
      obtain ⟨-, hconfig⟩ := of_refused hconfig
      split at hconfig
      · cases hconfig
      · exact not_not.mp ‹_›
    have hstart := h.start hj hhead
    exact .ensure_bind fun _ => .write hstart (hQ _ _ hstart rfl rfl rfl rfl)

variable {m : ArchiveManifest} {encoded : EncodedArchive} {through fuel : ℕ}
  {options : IncrementalInitOptions}

theorem upholds_disableBackupJournal {discard : Bool} (h : Sound s)
    (hm : s.manifest = some m) (hstate : m.state ≠ .active)
    (hQ : ∀ t, Sound t → t.manifest = s.manifest → Q () t) :
    Upholds Sound (disableBackupJournal discard) s Q := by
  refine .read_bind ?_
  cases hj : s.journal with
  | none => exact .pure (hQ s h rfl)
  | some j =>
    have hdisable := h.disable hm hstate
    exact .ensure_bind fun _ => .write hdisable (hQ _ hdisable rfl)

variable {path : String} {archive : Archive Image Delta} {status : BackupJournalStatus}
  {source : JournalSource Delta}

theorem upholds_writeNewArchiveEntry (h : Sound s)
    (hQ : ∀ files, Sound { s with files } → Q () { s with files }) :
    Upholds Sound (writeNewArchiveEntry path archive encoded) s Q := by
  refine .read_bind ?_
  cases s.files.lookup path with
  | some found => exact .ensure fun _ => hQ s.files h
  | none => exact .write (h.withFiles _) (hQ _ (h.withFiles _))

theorem upholds_writeOrReuseArchive (h : Sound s)
    (hQ : ∀ files, Sound { s with files } → Q () { s with files }) :
    Upholds Sound (writeOrReuseArchive path archive encoded) s Q := by
  refine .read_bind ?_
  cases s.files.lookup path with
  | some found => exact .ensure fun _ => hQ s.files h
  | none => exact upholds_writeNewArchiveEntry h hQ

variable [BackupExternal Image Delta]

theorem upholds_publishManifest {expected : Option ArchiveManifest}
    (h : s.manifest = expected → Sound { s with manifest := some m } ∧
      Q () { s with manifest := some m }) : Upholds Sound (publishManifest expected m) s Q := by
  refine .read_bind (.lift_bind fun _ _ => .ensure_bind fun _ => .ensure_bind fun _ =>
    .ensure_bind fun hexpected => ?_)
  obtain ⟨hsound, hQ⟩ := h hexpected
  exact .write hsound hQ

theorem upholds_readManifest {Q : ArchiveManifest → Store Image Delta → Prop}
    (h : ∀ m, s.manifest = some m → Q m s) : Upholds Sound readManifest s Q := by
  refine .read_bind ?_
  cases hm : s.manifest with
  | none => exact .lift fun _ ha => by cases ha
  | some m => exact .lift_bind fun _ _ => .pure (h m hm)

/-- Pruning up to a sealed sequence keeps the rest of the store. -/
theorem upholds_pruneExportedJournal {checksum : String} (h : Sound s)
    (hsealed : ∀ m, s.manifest = some m → through ≤ m.recoverableLastSequence)
    (hQ : ∀ t, Sound t → t.manifest = s.manifest → Q () t) :
    Upholds Sound (pruneExportedJournal through checksum) s Q := by
  refine .read_bind ?_
  cases hj : s.journal with
  | none => exact .lift fun _ ha => by cases ha
  | some j =>
    dsimp only
    split
    · exact .ensure fun _ => hQ s h rfl
    · rename_i hgt
      cases hfirst : j.firstRetainedSequence with
      | none => exact .lift fun _ ha => by cases ha
      | some first =>
        refine .ensure_bind fun hrange => .ensure_bind fun _ => .ensure_bind fun _ =>
          .ensure_bind fun _ => ?_
        have hsound := h.journal j hj
        have hcount : j.commitCount ≠ 0 := by
          intro hzero
          rw [hsound.first, if_pos hzero] at hfirst
          cases hfirst
        have hle : through ≤ s.head := by
          rw [hsound.last, if_neg hcount] at hrange
          exact hrange.2
        exact .write (h.prune hj (Nat.lt_of_not_le hgt) hle hsealed)
          (hQ _ (h.prune hj (Nat.lt_of_not_le hgt) hle hsealed) rfl)

/-- The journal of the database belongs to the manifest. -/
def Matches (s : Store Image Delta) (m : ArchiveManifest) : Prop :=
  ∃ j, s.journal = some j ∧ j.chainId = m.chainId ∧ j.baselineSequence = m.baseline.firstSequence

omit [BackupExternal Image Delta] in
theorem reconcileIdentity_eq_ok (h : reconcileIdentity m s.backupJournalStatus = .ok ()) :
    (s.journal = none ∧ m.state = .prepared) ∨ Matches s m := by
  unfold reconcileIdentity Store.backupJournalStatus at h
  cases hj : s.journal with
  | none =>
    rw [hj] at h
    by_cases hprepared : m.state = .prepared
    · exact .inl ⟨rfl, hprepared⟩
    · simp [hprepared] at h
  | some j =>
    rw [hj] at h
    by_cases hsame : some j.chainId = some m.chainId ∧
        some j.baselineSequence = some m.baseline.firstSequence
    · exact .inr ⟨j, hj, Option.some.inj hsame.1, Option.some.inj hsame.2⟩
    · simp only [hsame, if_false] at h
      cases h

omit [BackupExternal Image Delta] in
/-- A manifest may be activated if the journal belongs to it. -/
theorem Sound.activate {m' : ArchiveManifest} (h : Sound s) (hm : s.manifest = some m)
    (hmatches : Matches s m) (hchain : m'.chainId = m.chainId)
    (hbaseline : m'.baseline = m.baseline)
    (hsegments : m'.segments = m.segments)
    (hlast : m'.recoverableLastSequence = m.recoverableLastSequence) :
    Sound { s with manifest := some m' } := by
  have hcontiguous : m'.Contiguous := by
    unfold ArchiveManifest.Contiguous
    rw [hbaseline, hsegments, hlast]
    exact h.contiguous m hm
  refine h.withManifest hcontiguous (fun j hj hb => ?_) fun _ => ?_
  · rw [hbaseline] at hb
    rw [hlast]
    exact h.exported m j hm hj hb
  · rw [hchain, hbaseline]
    exact hmatches

/-! ### Starting a chain -/

omit [BackupExternal Image Delta] in
theorem upholds_enablePrepared
    (h : Sound s) (hrec : reconcileIdentity m s.backupJournalStatus = .ok ())
    (hQ : ∀ t, Sound t → t.manifest = s.manifest → Matches t m → Q () t) :
    Upholds Sound (enablePrepared m options s.backupJournalStatus) s Q := by
  unfold enablePrepared
  split
  · refine .ensure_bind fun _ => upholds_enableBackupJournal h ?_
    exact fun t j ht hman hj hchain hbaseline => hQ t ht hman ⟨j, hj, hchain, hbaseline⟩
  · rename_i hstate
    obtain ⟨hnone, -⟩ | hmatches := reconcileIdentity_eq_ok hrec
    · exact absurd (by rw [Store.backupJournalStatus, hnone]) hstate
    · exact .pure (hQ s h rfl hmatches)

theorem upholds_resumeInit (h : Sound s) (hm : s.manifest = some m) :
    Upholds Sound (resumeInit m options) s fun _ t => Sound t := by
  refine .read_bind (.lift_bind fun _ _ => .lift_bind fun _ hrec => ?_)
  refine (upholds_enablePrepared (Q := fun _ t =>
    Sound t ∧ t.manifest = some m ∧ Matches t m) h hrec
    fun t ht hman hmatches => ⟨ht, hman.trans hm, hmatches⟩).bind ?_
  rintro _ t ⟨ht, hman, hmatches⟩
  split
  · have hactive : Sound { t with manifest := some m.activated } :=
      ht.activate hman hmatches rfl rfl rfl rfl
    refine (upholds_publishManifest (Q := fun _ u => Sound u) fun _ => ⟨hactive, hactive⟩).bind ?_
    exact fun _ u hu => .pure hu
  · exact .pure ht

theorem upholds_init {chainId : String} (h : Sound s) :
    Upholds Sound (init chainId options) s fun _ t => Sound t := by
  refine .lift_bind fun _ _ => .read_bind ?_
  split
  · refine (upholds_readManifest (Q := fun m t => Sound t ∧ t.manifest = some m)
      fun m hm => ⟨h, hm⟩).bind ?_
    rintro m t ⟨ht, hm⟩
    exact upholds_resumeInit ht hm
  · refine .ensure_bind fun hdisabled => .lift_bind fun source hsource =>
      .lift_bind fun encoded _ => ?_
    have hnone : s.journal = none := by
      cases hj : s.journal with
      | none => rfl
      | some j =>
        rw [Store.backupJournalStatus, hj] at hdisabled
        cases hdisabled
    have hrange : source.firstSequence = source.lastSequence := by
      unfold Store.incrementalBaselineSource at hsource
      obtain ⟨-, hsource⟩ := of_refused hsource
      cases hsource
      rfl
    refine (upholds_writeNewArchiveEntry
      (Q := fun _ t => Sound t ∧ t.journal = none) h fun files hfiles => ⟨hfiles, hnone⟩).bind ?_
    rintro _ t ⟨ht, hjournal⟩
    set artifact := ManifestArtifact.ofArchive (baselinePath source encoded) source none encoded
    set prepared := ArchiveManifest.ofBaseline chainId source.databaseDigest artifact
    have hprepared : Sound { t with manifest := some prepared } := by
      refine ht.withManifest ⟨hrange, rfl⟩ (fun j hj => ?_) fun hactive => by cases hactive
      rw [hjournal] at hj
      cases hj
    refine (upholds_publishManifest (Q := fun _ u => Sound u ∧ u.manifest = some prepared)
      fun _ => ⟨hprepared, hprepared, rfl⟩).bind ?_
    rintro _ u ⟨hu, hman⟩
    refine (upholds_enableBackupJournal
      (Q := fun _ v => Sound v ∧ v.manifest = some prepared ∧ Matches v prepared) hu
      fun v j hv hsame hj hchain hbaseline =>
        ⟨hv, hsame.trans hman, j, hj, hchain, hbaseline⟩).bind ?_
    rintro _ v ⟨hv, hman, hmatches⟩
    have hactive : Sound { v with manifest := some { prepared with state := .active } } :=
      hv.activate hman hmatches rfl rfl rfl rfl
    refine (upholds_publishManifest (Q := fun _ w => Sound w) fun _ => ⟨hactive, hactive⟩).bind ?_
    exact fun _ w hw => .pure hw

/-! ### Sealing commits -/

theorem upholds_reconcileExportedPrefix (h : Sound s) (hm : s.manifest = some m)
    (hQ : ∀ t, Sound t → t.manifest = s.manifest → Q () t) :
    Upholds Sound (reconcileExportedPrefix m status) s Q := by
  refine .read_bind ?_
  cases status.exportedSequence with
  | none => exact .lift fun _ ha => by cases ha
  | some exported =>
    dsimp only
    split
    · exact .pure (hQ s h rfl)
    · refine .ensure_bind fun _ => ?_
      cases hlast : m.segments.getLast? with
      | none => exact .lift fun _ ha => by cases ha
      | some segment =>
        refine .ensure_bind fun _ => .lift_bind fun checksum _ =>
          upholds_pruneExportedJournal h (fun m' hm' => ?_) hQ
        obtain rfl : m = m' := Option.some.inj (hm.symm.trans hm')
        exact le_of_eq ((h.contiguous m hm).2.getLast hlast)

omit [BackupExternal Image Delta] in
theorem incrementalJournalSource_eq_ok
    (h : s.incrementalJournalSource through = .ok (some source)) :
    source.firstSequence ≤ through := by
  unfold Store.incrementalJournalSource at h
  split at h
  · cases h
  · split at h
    · cases h
    · split at h
      · cases h
      · rename_i hrange
        dsimp only at h
        split at h
        · cases h
        · cases h
          simp only [Bool.or_eq_true, decide_eq_true_eq, not_or, not_lt] at hrange
          exact hrange.1

/-- The chosen range is not empty. -/
theorem chooseSegment_eq_ok {options : IncrementalExportOptions} {first through' : ℕ}
    (h : chooseSegment s m options first fuel through = .ok (through', source, encoded)) :
    source.firstSequence ≤ through' := by
  induction fuel generalizing through with
  | zero => cases h
  | succ fuel ih =>
    obtain ⟨found, hfound, h⟩ := of_bind h
    cases found with
    | none => cases h
    | some src =>
      obtain ⟨enc, -, h⟩ := of_bind h
      split at h
      · cases h
        exact incrementalJournalSource_eq_ok hfound
      · exact ih h

omit [BackupExternal Image Delta] in
theorem Sound.withSegment {first : ℕ} (encoded : EncodedArchive)
    (h : Sound s) (hm : s.manifest = some m) (hfirst : first = m.recoverableLastSequence + 1)
    (hle : first ≤ through) :
    Sound { s with manifest := some (m.withSegment first through encoded) } := by
  refine h.withManifest ?_ (fun j hj hb => ?_) fun hactive => h.active m hm hactive
  · obtain ⟨hrange, hsegments⟩ := h.contiguous m hm
    exact ⟨hrange, hsegments.append hfirst hle rfl⟩
  · have hexported := h.exported m j hm hj hb
    change j.exportedSequence ≤ through
    omega

theorem upholds_exportSegments {options : IncrementalExportOptions} {target : ℕ}
    {commits segments : ℕ} (h : Sound s) (hm : s.manifest = some m) :
    Upholds Sound (exportSegments options target fuel m commits segments) s
      fun _ t => Sound t := by
  induction fuel generalizing s m commits segments with
  | zero => exact .lift fun _ ha => by cases ha
  | succ fuel ih =>
    unfold exportSegments
    split
    · exact .pure h
    · refine .read_bind (.lift_bind ?_)
      rintro ⟨through, source, encoded⟩ hchoose
      refine .ensure_bind fun hfirst => ?_
      have hle := chooseSegment_eq_ok hchoose
      rw [hfirst] at hle
      refine (upholds_writeNewArchiveEntry (Q := fun _ t => Sound t ∧ t.manifest = some m) h
        fun files hfiles => ⟨hfiles, hm⟩).bind ?_
      rintro _ t ⟨ht, hman⟩
      have hsegment := ht.withSegment encoded hman rfl hle
      refine (upholds_publishManifest
        (Q := fun _ u => Sound u ∧ ∃ m', u.manifest = some m' ∧
          m'.recoverableLastSequence = through)
        fun _ => ⟨hsegment, hsegment, _, rfl, rfl⟩).bind ?_
      rintro _ u ⟨hu, m', hm', hlast⟩
      have hsealed : ∀ m, u.manifest = some m → through ≤ m.recoverableLastSequence := by
        intro m₀ hm₀
        obtain rfl : m' = m₀ := Option.some.inj (hm'.symm.trans hm₀)
        exact le_of_eq hlast.symm
      refine (upholds_pruneExportedJournal (Q := fun _ v => Sound v) hu hsealed
        fun v hv _ => hv).bind ?_
      intro _ v hv
      refine (upholds_readManifest (Q := fun m v => Sound v ∧ v.manifest = some m)
        fun m hm => ⟨hv, hm⟩).bind ?_
      rintro m'' w ⟨hw, hman⟩
      exact ih hw hman

theorem upholds_activatePrepared {Q : ArchiveManifest → Store Image Delta → Prop} (h : Sound s)
    (hstarted : ¬Unstarted s) (hQ : ∀ m t, Sound t → t.manifest = some m → Q m t) :
    Upholds Sound activatePrepared s Q := by
  refine (upholds_readManifest (Q := fun m t => s = t ∧ s.manifest = some m)
    fun m hm => ⟨rfl, hm⟩).bind ?_
  rintro m _ ⟨rfl, hm⟩
  split
  · rename_i hprepared
    refine .read_bind (.lift_bind fun _ hrec => ?_)
    obtain ⟨hnone, -⟩ | hmatches := reconcileIdentity_eq_ok hrec
    · exact absurd ⟨hnone, m, hm, hprepared⟩ hstarted
    · have hactive : Sound { s with manifest := some m.activated } :=
        h.activate hm hmatches rfl rfl rfl rfl
      refine (upholds_publishManifest (Q := fun _ t => Sound t) fun _ =>
        ⟨hactive, hactive⟩).bind ?_
      intro _ t ht
      exact upholds_readManifest fun m' hm' => hQ m' t ht hm'
  · exact .pure (hQ m _ h hm)

theorem upholds_exportChain {options : IncrementalExportOptions} (h : Sound s)
    (hstarted : ¬Unstarted s) : Upholds Sound (exportChain options fuel) s fun _ t => Sound t := by
  refine .lift_bind fun _ _ => (upholds_activatePrepared
    (Q := fun m t => Sound t ∧ t.manifest = some m) h hstarted fun m t ht hm => ⟨ht, hm⟩).bind ?_
  rintro m t ⟨ht, hm⟩
  refine .ensure_bind fun _ => .read_bind ((upholds_reconcileExportedPrefix
    (Q := fun _ u => Sound u ∧ u.manifest = some m) ht hm
    fun u hu hman => ⟨hu, hman.trans hm⟩).bind ?_)
  rintro _ u ⟨hu, hman⟩
  refine .read_bind (.lift_bind fun _ _ => .lift_bind fun _ _ => .ensure_bind fun _ => ?_)
  split
  · exact .pure hu
  · refine (upholds_exportSegments hu hman).bind ?_
    rintro ⟨last, commits, segments⟩ v hv
    exact .pure hv

/-! ### A new baseline -/

omit [BackupExternal Image Delta] in
theorem upholds_retireJournal (h : Sound s)
    (hm : s.manifest = some m) (hprepared : m.state = .prepared)
    (hQ : ∀ t, Sound t → t.manifest = some m → Q () t) :
    Upholds Sound (retireJournal m status) s Q := by
  have hstate : m.state ≠ .active := by simp [hprepared]
  unfold retireJournal
  split
  · exact .ensure_bind fun _ => upholds_disableBackupJournal h hm hstate
      fun t ht hman => hQ t ht (hman.trans hm)
  · exact .pure (hQ s h hm)

omit [BackupExternal Image Delta] in
theorem upholds_restartJournal (h : Sound s) (hm : s.manifest = some m)
    (hQ : ∀ t, Sound t → t.manifest = some m → t.journal ≠ none → Q () t) :
    Upholds Sound (restartJournal m s.backupJournalStatus) s Q := by
  unfold restartJournal
  split
  · refine .lift_bind fun config _ => upholds_enableBackupJournal h fun t j ht hman hj _ _ => ?_
    exact hQ t ht (hman.trans hm) (by simp [hj])
  · rename_i hstate
    refine .pure (hQ s h hm fun hnone => hstate ?_)
    rw [Store.backupJournalStatus, hnone]

theorem upholds_finishCheckpoint (h : Sound s) (hm : s.manifest = some m)
    (hprepared : m.state = .prepared) :
    Upholds Sound (finishCheckpoint m) s fun _ t => Sound t := by
  refine .read_bind (.lift_bind fun _ _ => (upholds_retireJournal
    (Q := fun _ t => Sound t ∧ t.manifest = some m) h hm hprepared
    fun t ht hman => ⟨ht, hman⟩).bind ?_)
  rintro _ t ⟨ht, hman⟩
  refine .read_bind ((upholds_restartJournal
    (Q := fun _ u => Sound u ∧ u.manifest = some m ∧ u.journal ≠ none) ht hman
    fun u hu hman hne => ⟨hu, hman, hne⟩).bind ?_)
  rintro _ u ⟨hu, hman, hne⟩
  refine .read_bind (.lift_bind fun _ hrec => ?_)
  obtain ⟨hnone, -⟩ | hmatches := reconcileIdentity_eq_ok hrec
  · exact absurd hnone hne
  · have hactive : Sound { u with manifest := some { m.activated with
        checkpointPreviousFirstSequence := none, checkpointRetiredArtifacts := [] } } :=
      hu.activate hman hmatches rfl rfl rfl rfl
    refine (upholds_publishManifest (Q := fun _ v => Sound v) fun _ => ⟨hactive, hactive⟩).bind ?_
    exact fun _ v hv => .pure hv

theorem upholds_prepareCheckpoint (h : Sound s) : Upholds Sound prepareCheckpoint s fun m t =>
      Sound t ∧ t.manifest = some m ∧ m.state = .prepared := by
  refine .read_bind ((upholds_readManifest (Q := fun m t => s = t ∧ s.manifest = some m)
    fun m hm => ⟨rfl, hm⟩).bind ?_)
  rintro old _ ⟨rfl, hold⟩
  refine .lift_bind fun _ _ => .ensure_bind fun hexported => .lift_bind fun source hsource =>
    .lift_bind fun encoded _ => (upholds_writeOrReuseArchive
      (Q := fun _ t => Sound t ∧ t.manifest = some old ∧ t.journal = s.journal) h
      fun files hfiles => ⟨hfiles, hold, rfl⟩).bind ?_
  rintro _ t ⟨ht, hman, hjournal⟩
  set baseline := ManifestArtifact.ofArchive (baselinePath source encoded) source none encoded
  have hrange : source.firstSequence = s.head ∧ source.lastSequence = s.head := by
    unfold Store.incrementalBaselineSource at hsource
    obtain ⟨-, hsource⟩ := of_refused hsource
    cases hsource
    exact ⟨rfl, rfl⟩
  have hprepared :
      Sound { t with manifest := some (old.checkpointed baseline s.backupJournalStatus) } := by
    refine ht.withManifest ⟨hrange.1.trans hrange.2.symm, rfl⟩ (fun j hj _ => ?_) fun hactive => ?_
    · rw [hjournal] at hj
      rw [Store.backupJournalStatus, hj] at hexported
      change j.exportedSequence ≤ source.lastSequence
      rw [hrange.2]
      exact le_of_eq (Option.some.inj hexported.2)
    · cases hactive
  refine (upholds_publishManifest (Q := fun _ u => Sound u ∧
    u.manifest = some (old.checkpointed baseline s.backupJournalStatus))
    fun _ => ⟨hprepared, hprepared, rfl⟩).bind ?_
  rintro _ u ⟨hu, hnew⟩
  exact .pure ⟨hu, hnew, rfl⟩

theorem upholds_checkpoint (h : Sound s)
    (hguard : ¬Unstarted s ∨ ∃ m, s.manifest = some m ∧ m.journalMaxCommits.isSome) :
    Upholds Sound (checkpoint fuel) s fun _ t => Sound t := by
  refine (upholds_readManifest (Q := fun m t => s = t ∧ s.manifest = some m)
    fun m hm => ⟨rfl, hm⟩).bind ?_
  rintro m _ ⟨rfl, hm⟩
  split
  · rename_i hresume
    refine (upholds_finishCheckpoint h hm hresume.1).bind ?_
    exact fun _ t ht => .pure ht
  · rename_i hfresh
    have hstarted : ¬Unstarted s := by
      rintro ⟨hnone, m', hm', hprepared⟩
      obtain rfl : m = m' := Option.some.inj (hm.symm.trans hm')
      rcases hguard with hstarted | ⟨m'', hm'', hlimit⟩
      · exact hstarted ⟨hnone, m, hm, hprepared⟩
      · obtain rfl : m = m'' := Option.some.inj (hm.symm.trans hm'')
        exact hfresh ⟨hprepared, hlimit⟩
    refine (upholds_exportChain h hstarted).bind ?_
    intro _ t ht
    refine (upholds_prepareCheckpoint ht).bind ?_
    rintro m' u ⟨hu, hman, hprepared⟩
    exact upholds_finishCheckpoint hu hman hprepared

/-! ## Runs -/

/-- What one event leaves satisfies the invariant. -/
theorem Sound.leaves {t : Store Image Delta} {e : Event Image Delta} (h : Sound s)
    (hguard : Guarded e s) (ht : t ∈ e.leaves s) : Sound t := by
  have hcall : ∀ {visited : List (Store Image Delta)}, (∀ u ∈ visited, Sound u) →
      t ∈ s :: visited → Sound t := by
    intro visited hvisited ht
    rcases mem_cons.mp ht with rfl | ht
    · exact h
    · exact hvisited t ht
  cases e with
  | commit image delta =>
    simp only [Event.leaves] at ht
    split at ht
    · rename_i u hu
      obtain rfl := mem_singleton.mp ht
      exact h.commit hu
    · obtain rfl := mem_singleton.mp ht
      exact h
  | init chainId options => exact hcall (upholds_init h).1 ht
  | exportChain options fuel => exact hcall (upholds_exportChain h hguard).1 ht
  | checkpoint fuel => exact hcall (upholds_checkpoint h hguard).1 ht

theorem Sound.reaches {t : Store Image Delta} (h : Reaches Guarded s t) (hs : Sound s) :
    Sound t := by
  induction h with
  | refl => exact hs
  | step _ he hu ih => exact ih.leaves he hu

/-- **The chain has no gap**, whatever is cut off and whenever the database commits, as
long as no export runs before the journal of a prepared manifest is started. -/
theorem chained_of_reaches (hfresh : Fresh s) {t : Store Image Delta}
    (h : Reaches Guarded s t) : Chained t :=
  (hfresh.sound.reaches h).chained

end Workflow

section Cut

/-- A checksum in canonical form. -/
def zeroChecksum : String :=
  "sha256:0000000000000000000000000000000000000000000000000000000000000000"

/-- An environment in which every record and every archive has size one. -/
@[reducible] def unitExternal : BackupExternal Unit Unit where
  commitChecksum _ _ _ := zeroChecksum
  recordBytes _ _ _ := 1
  encodeArchive _ := .ok ⟨zeroChecksum, zeroChecksum, 1, 1⟩
  manifestBytes _ := 1

attribute [local instance] unitExternal

/-- A new database next to an empty archive. -/
def newStore : Store Unit Unit := ⟨none, [], "digest", 0, (), none, []⟩

theorem fresh_newStore : Fresh newStore := ⟨rfl, rfl, rfl, Nat.zero_le _⟩

/-- A chain that is started, and whose first commit is sealed. -/
theorem chained_of_reaches_sealed : Fresh newStore ∧ ∃ t : Store Unit Unit,
    Reaches Guarded newStore t ∧ Chained t ∧
      t.manifest.map (fun m => (m.state, m.recoverableLastSequence)) = some (.active, 1) := by
  obtain ⟨started, hstarted, hjournal⟩ : ∃ started ∈ Event.leaves newStore
      (.init "chain" ⟨10, 10⟩), started.journal.isSome = true ∧
        (∃ committed ∈ Event.leaves started (.commit () ()), committed.journal.isSome = true ∧
          ∃ t ∈ Event.leaves committed (.exportChain .default 2),
            t.manifest.map (fun m => (m.state, m.recoverableLastSequence)) =
              some (.active, 1)) := by
    decide +kernel
  obtain ⟨hactive, committed, hcommitted, hkept, t, ht, hmanifest⟩ := hjournal
  have hinit : Reaches Guarded newStore started :=
    .step (e := .init "chain" ⟨10, 10⟩) .refl trivial hstarted
  have hcommit : Reaches Guarded newStore committed :=
    .step (e := .commit () ()) hinit trivial hcommitted
  have hreach : Reaches Guarded newStore t := by
    refine .step (e := .exportChain .default 2) hcommit ?_ ht
    rintro ⟨hnone, -⟩
    rw [hnone] at hkept
    cases hkept
  exact ⟨fresh_newStore, t, hreach, chained_of_reaches fresh_newStore hreach, hmanifest⟩

/-- `init` is cut off before it starts the journal, and an export activates the
manifest: the next commit is not retained anywhere. -/
theorem chained_cut : ∃ t : Store Unit Unit,
    Fresh newStore ∧ Reaches (fun _ _ => True) newStore t ∧ ¬Chained t ∧ t.head = 1 := by
  obtain ⟨prepared, hprepared, activated, hactivated, t, ht, hstate, hnone, hhead⟩ :
      ∃ prepared ∈ Event.leaves newStore (.init "chain" ⟨10, 10⟩),
      ∃ activated ∈ Event.leaves prepared (.exportChain .default 1),
      ∃ t ∈ Event.leaves activated (.commit () ()),
        t.manifest.map (fun m => m.state) = some .active ∧ t.journal = none ∧ t.head = 1 := by
    decide +kernel
  refine ⟨t, fresh_newStore, .step (.step (.step .refl trivial hprepared) trivial hactivated)
    trivial ht, fun hchained => ?_, hhead⟩
  obtain ⟨m, hm, hactive⟩ := Option.map_eq_some_iff.mp hstate
  obtain ⟨j, hj, -⟩ := hchained.retained m hm hactive
  rw [hnone] at hj
  cases hj

end Cut

end UnionId.Backup
