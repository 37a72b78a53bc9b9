import Mathlib.Logic.Relation
import UnionId.Model.Types

/-!
# Cancellation of streamed reads

A streamed read is registered under an operation identity. Its producer moves it through
its phases, sends frames and proposes an outcome; cancel calls for the identity, and the
calls of other operations, come between any two of its registry sections. An operation that
was finished leaves a tombstone, which answers later cancel calls until it expires.
-/
namespace UnionId.Server

open List

/-! ## The registry -/

inductive OperationOutcome where
  | completed
  | cancelled
  | failed
  deriving DecidableEq, Repr

inductive CancelStatus where
  | accepted
  | alreadyTerminal
  | unknown
  deriving DecidableEq, Repr

structure CancelResult where
  status : CancelStatus
  outcome : Option OperationOutcome
  deriving DecidableEq, Repr

inductive OperationPhase where
  | registered
  | queued
  | executing
  | emitting
  | cancelling
  deriving DecidableEq, Repr

/-- The phase of an active operation, and the signal its checkpoints read. -/
structure OperationEntry where
  phase : OperationPhase
  cancelled : Bool

structure OperationTombstone where
  id : String
  outcome : OperationOutcome
  completed : ℕ

structure OperationRegistry where
  active : String → Option OperationEntry
  terminal : List OperationTombstone

def MAX_OPERATION_TOMBSTONES : ℕ := 256

/-- One minute, in nanoseconds. -/
def OPERATION_TOMBSTONE_TTL : ℕ := 60 * 10 ^ 9

/-- Tombstones completed by this time are expired; the clock itself while it is younger
than their lifetime. -/
def cutoff (now : ℕ) : ℕ :=
  if OPERATION_TOMBSTONE_TTL ≤ now then now - OPERATION_TOMBSTONE_TTL else now

/-- Drop the oldest tombstones while they are expired or too many. -/
def expireFrom (cutoff : ℕ) : List OperationTombstone → List OperationTombstone
  | [] => []
  | t :: ts =>
    if t.completed ≤ cutoff ∨ (t :: ts).length > MAX_OPERATION_TOMBSTONES then
      expireFrom cutoff ts
    else t :: ts

namespace OperationRegistry

def expire (r : OperationRegistry) (now : ℕ) : OperationRegistry :=
  { r with terminal := expireFrom (cutoff now) r.terminal }

def setEntry (r : OperationRegistry) (id : String) (entry : Option OperationEntry) :
    OperationRegistry :=
  { r with active := Function.update r.active id entry }

def tryCancel (r : OperationRegistry) (id : String) (now : ℕ) : CancelResult × OperationRegistry :=
  let r := r.expire now
  match r.active id with
  | some entry =>
    if entry.phase = .cancelling then (⟨.accepted, none⟩, r)
    else (⟨.accepted, none⟩, r.setEntry id (some ⟨.cancelling, true⟩))
  | none =>
    match r.terminal.find? fun t => t.id = id with
    | some t => (⟨.alreadyTerminal, some t.outcome⟩, r)
    | none => (⟨.unknown, none⟩, r)

def operationPhase (r : OperationRegistry) (id : String) (phase : OperationPhase) :
    Result OperationRegistry :=
  match r.active id with
  | none => fail .E_OPERATION_UNKNOWN "read operation is not active"
  | some entry =>
    if entry.phase = .cancelling then fail .E_CANCELLED "read operation cancelled"
    else pure (r.setEntry id (some { entry with phase }))

/-- The outcome counts from the phase in the registry; the tombstone is completed before
the others expire. -/
def finishOperation (r : OperationRegistry) (id : String) (proposed : OperationOutcome)
    (completed now : ℕ) : OperationOutcome × OperationRegistry :=
  match r.active id with
  | none => (proposed, r)
  | some entry =>
    let outcome := if entry.phase = .cancelling then .cancelled else proposed
    let tombstones := r.terminal ++ [⟨id, outcome, completed⟩]
    (outcome, ({ r.setEntry id none with terminal := tombstones } : OperationRegistry).expire now)

end OperationRegistry

/-! ## The stream -/

inductive Frame where
  | accepted
  | schema
  | row (sequence : ℕ)
  | complete (rowCount encodedBytes : ℕ)
  | error (emittedRows : ℕ) (error : Error)

def MAX_EMITTED_BYTES : ℕ := 256 * 1024 * 1024

def USIZE_MAX : ℕ := 2 ^ 64 - 1

/-- Where the producer is: before a phase change, among the frames of the query, with a
result, with the terminal frame to send, after a terminal frame that could not be sent, or
at its end. -/
inductive Stage where
  | registered
  | admitted
  | prepared
  | emitting (begun : Bool)
  | finishing (result : Result Unit)
  | delivering (frame : Frame)
  | undelivered
  | done

namespace Stage

/-- The next phase change of the producer and where it goes from there. -/
def nextPhase : Stage → Option (OperationPhase × Stage)
  | .registered => some (.queued, .admitted)
  | .admitted => some (.executing, .prepared)
  | .prepared => some (.emitting, .emitting false)
  | _ => none

/-- Whether the schema was sent, while the query has no result. -/
def begun : Stage → Option Bool
  | .registered | .admitted | .prepared => some false
  | .emitting begun => some begun
  | _ => none

/-- The operation is not finished yet. -/
def unfinished : Stage → Bool
  | .finishing _ => true
  | stage => stage.begun.isSome

end Stage

/-- What the producer proposes for a result. -/
def proposedOutcome : Result Unit → OperationOutcome
  | .ok _ => .completed
  | .error e => if e.code = .E_CANCELLED then .cancelled else .failed

def terminalFrame (rows bytes : ℕ) : Result Unit → OperationOutcome → Option Frame
  | .ok _, .completed => some (.complete rows bytes)
  | .error e, .failed => some (.error rows e)
  | _, .cancelled =>
    some (.error rows { code := .E_CANCELLED, message := "read operation cancelled" })
  | _, .failed => some (.error rows { code := .E_INTERNAL, message := "stream operation failed" })
  | _, .completed => none

/-- An outcome that was decided, when, and after how many other operations. -/
structure Decision where
  outcome : OperationOutcome
  completed : ℕ
  others : ℕ

/-- A started operation among the others: the registry, the producer, and what was sent,
replied and decided so far. -/
structure State where
  registry : OperationRegistry
  now : ℕ
  stage : Stage
  emittedRows : ℕ
  encodedBytes : ℕ
  frames : List Frame
  replies : List CancelResult
  decisions : List Decision
  /-- How many other operations were finished. -/
  others : ℕ

/-- A registry section of another operation. -/
inductive OtherCall where
  | register
  | phase (phase : OperationPhase)
  | cancel
  | finish (proposed : OperationOutcome)
  | drop

def OtherCall.finishes : OtherCall → ℕ
  | .finish _ => 1
  | _ => 0

def OperationRegistry.call (r : OperationRegistry) (other : String) (now : ℕ) :
    OtherCall → OperationRegistry
  | .register => (r.expire now).setEntry other (some ⟨.registered, false⟩)
  | .phase phase => (r.operationPhase other phase).toOption.getD r
  | .cancel => (r.tryCancel other now).2
  | .finish proposed => (r.finishOperation other proposed now now).2
  | .drop => r.setEntry other none

namespace State

/-- A phase change that succeeds, or the error it leaves as the result. -/
def changePhase (s : State) (id : String) (phase : OperationPhase) (next : Stage) : State :=
  match s.registry.operationPhase id phase with
  | .ok r => { s with registry := r, stage := next }
  | .error e => { s with stage := .finishing (.error e) }

/-- A sent frame of the query. -/
def send (s : State) (frame : Frame) (size : ℕ) (next : Stage) : State :=
  { s with frames := s.frames ++ [frame], encodedBytes := s.encodedBytes + size, stage := next }

def cancel (s : State) (id : String) : State :=
  let result := s.registry.tryCancel id s.now
  { s with registry := result.2, replies := s.replies ++ [result.1] }

/-- The terminal section; `next` is where the producer goes with the outcome. -/
def finish (s : State) (id : String) (proposed : OperationOutcome) (now : ℕ)
    (next : OperationOutcome → Stage) : State :=
  let result := s.registry.finishOperation id proposed s.now now
  { s with registry := result.2, now, stage := next result.1,
           decisions := s.decisions ++ [⟨result.1, s.now, s.others⟩] }

end State

/-- One step of a started operation among cancel calls, other operations and the clock.
Anything may fail before there is a result, and the guard of an operation that is dropped
finishes it. -/
inductive Step (id : String) (s : State) : State → Prop
  | tick (now : ℕ) (h : s.now ≤ now) : Step id s { s with now }
  | other (call : OtherCall) (other : String) (h : other ≠ id) :
      Step id s { s with registry := s.registry.call other s.now call,
                         others := s.others + call.finishes }
  | cancel : Step id s (s.cancel id)
  | phase (phase : OperationPhase) (next : Stage) (h : s.stage.nextPhase = some (phase, next)) :
      Step id s (s.changePhase id phase next)
  | fail (e : Error) (h : s.stage.begun.isSome) :
      Step id s { s with stage := .finishing (.error e) }
  | schema (size : ℕ) (h : s.stage = .emitting false) (hsize : 0 < size)
      (hfit : s.encodedBytes + size ≤ MAX_EMITTED_BYTES) :
      Step id s (s.send .schema size (.emitting true))
  | row (size : ℕ) (h : s.stage = .emitting true) (hsize : 0 < size)
      (hfit : s.encodedBytes + size ≤ MAX_EMITTED_BYTES) :
      Step id s { s.send (.row s.emittedRows) size (.emitting true) with
                  emittedRows := min (s.emittedRows + 1) USIZE_MAX }
  | respond (begun : Bool) (h : s.stage = .emitting begun) :
      Step id s { s with stage := .finishing (.ok ()) }
  | finish (result : Result Unit) (now : ℕ) (h : s.stage = .finishing result) (hnow : s.now ≤ now) :
      Step id s (s.finish id (proposedOutcome result) now fun outcome =>
        ((terminalFrame s.emittedRows s.encodedBytes result outcome).map .delivering).getD .done)
  | deliver (frame : Frame) (h : s.stage = .delivering frame) :
      Step id s { s with frames := s.frames ++ [frame], stage := .done }
  | lose (frame : Frame) (h : s.stage = .delivering frame) :
      Step id s { s with stage := .undelivered }
  | cancelLocal (h : s.stage = .undelivered) : Step id s { s.cancel id with stage := .done }
  | drop (now : ℕ) (h : s.stage.unfinished) (hnow : s.now ≤ now) :
      Step id s (s.finish id .failed now fun _ => .done)

/-- A registered operation whose accepted frame was sent. -/
structure Starts (id : String) (s : State) : Prop where
  active : s.registry.active id = some ⟨.registered, false⟩
  fresh : ∀ t ∈ s.registry.terminal, t.id ≠ id
  stage : s.stage = .registered
  rows : s.emittedRows = 0
  bytes : s.encodedBytes ≤ MAX_EMITTED_BYTES
  frames : s.frames = [.accepted]
  replies : s.replies = []
  decisions : s.decisions = []

/-! ## Sections that leave an operation alone -/

section Registry
variable {id : String} {r r' : OperationRegistry} {now n c : ℕ} {t : OperationTombstone}
  {newer : List OperationTombstone} {entry : OperationEntry}

theorem mem_of_mem_expireFrom {l : List OperationTombstone} (h : t ∈ expireFrom c l) : t ∈ l := by
  induction l with
  | nil => exact h
  | cons u l ih =>
    rw [expireFrom] at h
    split at h
    · exact mem_cons_of_mem u (ih h)
    · exact h

/-- A tombstone stays until its time, or until there are too many behind it. -/
theorem expireFrom_keeps (older newer : List OperationTombstone)
    (hc : c < t.completed) (hn : newer.length < MAX_OPERATION_TOMBSTONES) :
    ∃ kept, expireFrom c (older ++ t :: newer) = kept ++ t :: newer := by
  induction older with
  | nil =>
    refine ⟨[], ?_⟩
    have hstays : ¬ (t.completed ≤ c ∨ (t :: newer).length > MAX_OPERATION_TOMBSTONES) := by
      rw [length_cons]
      omega
    rw [nil_append, expireFrom, if_neg hstays]
  | cons u older ih =>
    rw [cons_append, expireFrom]
    split
    · exact ih
    · exact ⟨u :: older, rfl⟩

/-- The section leaves the entry of the operation, and adds at most `n` tombstones, none of
them its own. -/
structure Passes (id : String) (now n : ℕ) (r r' : OperationRegistry) : Prop where
  active : r'.active id = r.active id
  terminal : ∃ pushed, (∀ t ∈ pushed, t.id ≠ id) ∧ pushed.length ≤ n ∧
    (r'.terminal = r.terminal ++ pushed ∨ r'.terminal =
      expireFrom (cutoff now) (r.terminal ++ pushed))

theorem Passes.mem (h : Passes id now n r r') (ht : t ∈ r'.terminal) (hid : t.id = id) :
    t ∈ r.terminal := by
  obtain ⟨pushed, hpushed, -, hterminal⟩ := h.terminal
  have hmem : t ∈ r.terminal ++ pushed := by
    rcases hterminal with heq | heq
    · exact heq ▸ ht
    · exact mem_of_mem_expireFrom (heq ▸ ht)
  exact (mem_append.mp hmem).resolve_right fun hp => hpushed t hp hid

theorem Passes.keeps (h : Passes id now n r r') {older : List OperationTombstone}
    (hr : r.terminal = older ++ t :: newer) (hc : cutoff now < t.completed)
    (hn : newer.length + n < MAX_OPERATION_TOMBSTONES) :
    ∃ older' newer', r'.terminal = older' ++ t :: newer' ∧ newer'.length ≤ newer.length + n := by
  obtain ⟨pushed, -, hpushed, hterminal⟩ := h.terminal
  have hlength : (newer ++ pushed).length ≤ newer.length + n := by
    rw [length_append]
    omega
  rw [hr, append_assoc, cons_append] at hterminal
  rcases hterminal with heq | heq
  · exact ⟨older, newer ++ pushed, heq, hlength⟩
  · obtain ⟨kept, hkept⟩ := expireFrom_keeps older _ hc (hlength.trans_lt hn)
    exact ⟨kept, newer ++ pushed, heq.trans hkept, hlength⟩

theorem passes_expire : Passes id now 0 r (r.expire now) :=
  ⟨rfl, [], by simp, le_rfl, .inr (by rw [append_nil]; rfl)⟩

theorem passes_call {other : String} (hne : other ≠ id) (call : OtherCall) :
    Passes id now call.finishes r (r.call other now call) := by
  have hset (r : OperationRegistry) (entry : Option OperationEntry) :
      (r.setEntry other entry).active id = r.active id := by
    simp [OperationRegistry.setEntry, hne.symm]
  have hexpire (entry : Option OperationEntry) :
      Passes id now 0 r ((r.expire now).setEntry other entry) :=
        { passes_expire with active := hset _ _ }
  have hsame (r' : OperationRegistry) (ha : r'.active id = r.active id)
      (ht : r'.terminal = r.terminal) : Passes id now 0 r r' :=
    ⟨ha, [], by simp, le_rfl, .inl (by rw [ht, append_nil])⟩
  cases call with
  | register => exact hexpire _
  | phase phase =>
    simp only [OperationRegistry.call, OperationRegistry.operationPhase]
    cases r.active other with
    | none => exact hsame r rfl rfl
    | some entry =>
      dsimp only
      split
      · exact hsame r rfl rfl
      · exact hsame _ (hset _ _) rfl
  | cancel =>
    simp only [OperationRegistry.call, OperationRegistry.tryCancel]
    split
    · split
      · exact passes_expire
      · exact hexpire _
    · split <;> exact passes_expire
  | finish proposed =>
    simp only [OperationRegistry.call, OperationRegistry.finishOperation]
    split
    · exact ⟨rfl, [], by simp, by simp [OtherCall.finishes], .inl (by simp)⟩
    · exact ⟨hset _ _, [_], by simpa using hne, le_rfl, .inr rfl⟩
  | drop => exact hsame _ (hset _ _) rfl

/-- A cancel call for an operation that was finished finds its tombstone, if it is kept. -/
theorem tryCancel_of_inactive (h : r.active id = none) {o : OperationOutcome} (now : ℕ)
    (ho : ∀ t ∈ r.terminal, t.id = id → t.outcome = o) : (r.tryCancel id now).2 = r.expire now ∧
      (r.tryCancel id now).1 = if ∃ t ∈ (r.expire now).terminal, t.id = id
        then ⟨.alreadyTerminal, some o⟩ else ⟨.unknown, none⟩ := by
  have hactive : (r.expire now).active id = none := h
  simp only [OperationRegistry.tryCancel, hactive]
  cases hfind : (r.expire now).terminal.find? fun t => t.id = id with
  | none =>
    refine ⟨rfl, (if_neg ?_).symm⟩
    simpa using hfind
  | some t =>
    have hmem := mem_of_find?_eq_some hfind
    have hid : t.id = id := by simpa using find?_some hfind
    rw [if_pos ⟨t, hmem, hid⟩, ← ho t (mem_of_mem_expireFrom hmem) hid]
    exact ⟨rfl, rfl⟩

theorem tryCancel_of_active (h : r.active id = some entry) (now : ℕ) :
    (r.tryCancel id now).2.terminal = (r.expire now).terminal ∧
      ∃ e, (r.tryCancel id now).2.active id = some e ∧ e.phase = .cancelling := by
  have hactive : (r.expire now).active id = some entry := h
  simp only [OperationRegistry.tryCancel, hactive]
  split
  · exact ⟨rfl, entry, hactive, by assumption⟩
  · exact ⟨rfl, ⟨.cancelling, true⟩, by simp [OperationRegistry.setEntry], rfl⟩

theorem finishOperation_of_active (h : r.active id = some entry)
    (proposed : OperationOutcome) (completed now : ℕ) :
    ∃ o r', r.finishOperation id proposed completed now = (o, r') ∧
      (entry.phase = .cancelling → o = .cancelled) ∧ r'.active id = none ∧
      r'.terminal = expireFrom (cutoff now) (r.terminal ++ [⟨id, o, completed⟩]) := by
  refine ⟨_, _, by rw [OperationRegistry.finishOperation, h], fun hphase => if_pos hphase, ?_, rfl⟩
  simp [OperationRegistry.expire, OperationRegistry.setEntry]

end Registry

/-! ## The invariant -/

/-- The frames of a query that sent so many rows. -/
def queryFrames (begun : Bool) (rows : ℕ) : List Frame :=
  .accepted :: if begun then .schema :: (List.range rows).map .row else []

def Frame.Reports (rows : ℕ) (outcome : OperationOutcome) : Frame → Prop
  | .complete n _ => n = rows ∧ outcome = .completed
  | .error n _ => n = rows ∧ outcome ≠ .completed
  | _ => False

/-- Some cancel call was accepted. -/
def State.Accepted (s : State) : Prop := ∃ reply ∈ s.replies, reply.status = .accepted

/-- The operation is active, and cancelling once a cancel call was accepted. -/
structure Pending (id : String) (s : State) : Prop where
  stage : s.stage.unfinished = true
  decisions : s.decisions = []
  entry : ∃ e, s.registry.active id = some e ∧ (s.Accepted → e.phase = .cancelling)
  fresh : ∀ t ∈ s.registry.terminal, t.id ≠ id
  frames : ∃ begun, s.frames = queryFrames begun s.emittedRows ∧
    (begun = false → s.emittedRows = 0) ∧ ∀ b, s.stage.begun = some b → b = begun
  rows : s.emittedRows ≤ s.encodedBytes
  bytes : s.encodedBytes ≤ MAX_EMITTED_BYTES

/-- The operation was finished once, with an outcome that its tombstone and its terminal
frame report. -/
structure Decided (id : String) (s : State) (d : Decision) : Prop where
  stage : s.stage.unfinished = false
  decisions : s.decisions = [d]
  inactive : s.registry.active id = none
  accepted : s.Accepted → d.outcome = .cancelled
  tombstones : ∀ t ∈ s.registry.terminal, t.id = id → t.outcome = d.outcome
  kept : OPERATION_TOMBSTONE_TTL ≤ d.completed → s.now < d.completed + OPERATION_TOMBSTONE_TTL →
    s.others < d.others + MAX_OPERATION_TOMBSTONES → ∃ older newer,
      s.registry.terminal = older ++ ⟨id, d.outcome, d.completed⟩ :: newer ∧
        newer.length + d.others ≤ s.others
  frames : ∃ begun tail, s.frames = queryFrames begun s.emittedRows ++ tail ∧
    (begun = false → s.emittedRows = 0) ∧ (tail = [] ∨ s.stage = .done ∧ ∃ f, tail = [f] ∧
      f.Reports s.emittedRows d.outcome)
  delivering : ∀ f, s.stage = .delivering f → f.Reports s.emittedRows d.outcome

def Consistent (id : String) (s : State) : Prop := Pending id s ∨ ∃ d, Decided id s d

variable {stage : Stage} {rows : ℕ}

theorem Stage.unfinished_of_begun (h : stage.begun.isSome) : stage.unfinished = true := by
  cases stage <;> first | rfl | cases h

theorem Stage.begun_nextPhase {next : Stage} {phase : OperationPhase}
    (h : stage.nextPhase = some (phase, next)) :
    stage.begun = some false ∧ next.begun = some false := by
  cases stage <;> cases h <;> exact ⟨rfl, rfl⟩

theorem reports_terminalFrame {bytes : ℕ} {result : Result Unit} {o : OperationOutcome}
    {f : Frame} (h : terminalFrame rows bytes result o = some f) : f.Reports rows o := by
  cases result <;> cases o <;> cases h <;> simp [Frame.Reports]

theorem cutoff_lt {now completed : ℕ} (hold : OPERATION_TOMBSTONE_TTL ≤ completed)
    (hnow : now < completed + OPERATION_TOMBSTONE_TTL) : cutoff now < completed := by
  unfold cutoff
  split <;> omega

section Steps
variable {id : String} {s s' : State} {d : Decision} {now n size : ℕ} {next : Stage}

section
variable (h : Decided id s d)
include h

/-- The clock and the sections of other operations leave what was decided. -/
theorem Decided.passes {r : OperationRegistry} (hr : Passes id s.now n s.registry r)
    (hs : s.now ≤ now) :
    Decided id { s with registry := r, now, others := s.others + n } d where
  __ := h
  inactive := hr.active.trans h.inactive
  tombstones t ht hid := h.tombstones t (hr.mem ht hid) hid
  kept hold hnow hothers := by
    dsimp only at hnow hothers ⊢
    obtain ⟨older, newer, hterminal, hnewer⟩ := h.kept hold (hs.trans_lt hnow) (by omega)
    obtain ⟨older', newer', hterminal', hnewer'⟩ := hr.keeps hterminal
      (cutoff_lt hold (hs.trans_lt hnow)) (by omega)
    exact ⟨older', newer', hterminal', by omega⟩

/-- A cancel call for a finished operation is not accepted. -/
theorem Decided.cancel : Decided id (s.cancel id) d := by
  obtain ⟨hregistry, hreply⟩ := tryCancel_of_inactive h.inactive s.now h.tombstones
  have hpasses := h.passes (hregistry ▸ passes_expire) le_rfl
  refine { hpasses with accepted := fun ⟨reply, hmem, hstatus⟩ => ?_ }
  rcases mem_append.mp hmem with hmem | hmem
  · exact h.accepted ⟨reply, hmem, hstatus⟩
  · rw [mem_singleton.mp hmem, hreply] at hstatus
    split at hstatus <;> cases hstatus

theorem Decided.frames_of_ne_done (hs : s.stage ≠ .done) :
    ∃ begun, s.frames = queryFrames begun s.emittedRows ∧ (begun = false → s.emittedRows = 0) := by
  obtain ⟨begun, tail, hframes, hrows, rfl | ⟨hdone, -⟩⟩ := h.frames
  · exact ⟨begun, by simpa using hframes, hrows⟩
  · exact absurd hdone hs

theorem Decided.deliver {f : Frame} (hs : s.stage = .delivering f) :
    Decided id { s with frames := s.frames ++ [f], stage := .done } d := by
  obtain ⟨begun, hframes, hrows⟩ := h.frames_of_ne_done (by simp [hs])
  exact { h with
    stage := rfl
    frames := ⟨begun, [f], by rw [hframes], hrows, .inr ⟨rfl, f, rfl, h.delivering f hs⟩⟩
    delivering := by simp }

/-- The producer goes on without a frame. -/
theorem Decided.leave (hs : s.stage ≠ .done) (hnext : next = .undelivered ∨ next = .done) :
    Decided id { s with stage := next } d := by
  obtain ⟨begun, hframes, hrows⟩ := h.frames_of_ne_done hs
  exact { h with
    stage := by rcases hnext with rfl | rfl <;> rfl
    frames := ⟨begun, [], by simpa using hframes, hrows, .inl rfl⟩
    delivering := by rcases hnext with rfl | rfl <;> simp }

end

section
variable (h : Pending id s)
include h

theorem Pending.passes {r : OperationRegistry} (hr : Passes id s.now n s.registry r) :
    Pending id { s with registry := r, now, others := s.others + n } where
  __ := h
  entry := hr.active ▸ h.entry
  fresh t ht hid := h.fresh t (hr.mem ht hid) hid

/-- A cancel call for an active operation makes it cancelling. -/
theorem Pending.cancel : Pending id (s.cancel id) := by
  obtain ⟨e, he, -⟩ := h.entry
  obtain ⟨hterminal, e', he', hphase⟩ := tryCancel_of_active he s.now
  refine { h with entry := ⟨e', he', fun _ => hphase⟩, fresh := fun t ht => ?_ }
  exact h.fresh t (mem_of_mem_expireFrom (hterminal ▸ ht))

/-- The terminal section turns the phase in the registry into the only outcome. -/
theorem Pending.finish {proposed : OperationOutcome} {next : OperationOutcome → Stage}
    (hnext : ∀ o, (next o).unfinished = false ∧
      ∀ f, next o = .delivering f → f.Reports s.emittedRows o) :
    ∃ d, Decided id (s.finish id proposed now next) d := by
  obtain ⟨e, he, haccepted⟩ := h.entry
  obtain ⟨begun, hframes, hrows, -⟩ := h.frames
  obtain ⟨o, r, hfinish, ho, hinactive, hterminal⟩ :=
    finishOperation_of_active he proposed s.now now
  refine ⟨⟨o, s.now, s.others⟩, ?_⟩
  simp only [State.finish, hfinish, h.decisions, nil_append]
  exact {
    stage := (hnext o).1
    decisions := rfl
    inactive := hinactive
    accepted := fun ha => ho (haccepted ha)
    tombstones := fun t ht hid => by
      rcases mem_append.mp (mem_of_mem_expireFrom (hterminal ▸ ht)) with hmem | hmem
      · exact absurd hid (h.fresh t hmem)
      · rw [mem_singleton.mp hmem]
    kept := fun hold hnow _ => by
      obtain ⟨kept, hkept⟩ := expireFrom_keeps (t := ⟨id, o, s.now⟩) s.registry.terminal
        [] (cutoff_lt hold hnow) (by decide)
      exact ⟨kept, [], hterminal.trans hkept, by simp⟩
    frames := ⟨begun, [], by simpa using hframes, hrows, .inl rfl⟩
    delivering := (hnext o).2 }

theorem Pending.result (result : Result Unit) :
    Pending id { s with stage := .finishing result } := by
  obtain ⟨begun, hframes, hrows, -⟩ := h.frames
  exact { h with stage := rfl, frames := ⟨begun, hframes, hrows, by simp [Stage.begun]⟩ }

theorem Pending.changePhase {phase : OperationPhase}
    (hnext : s.stage.nextPhase = some (phase, next)) :
    Pending id (s.changePhase id phase next) := by
  obtain ⟨e, he, haccepted⟩ := h.entry
  obtain ⟨begun, hframes, hrows, hbegun⟩ := h.frames
  obtain ⟨hstage, hnextStage⟩ := Stage.begun_nextPhase hnext
  rw [State.changePhase, OperationRegistry.operationPhase, he]
  by_cases hphase : e.phase = .cancelling
  · simp only [hphase, if_true]
    exact h.result _
  · simp only [hphase, if_false]
    change Pending id { s with registry := _, stage := next }
    exact { h with
      stage := Stage.unfinished_of_begun (by simp [hnextStage])
      entry := ⟨{ e with phase }, Function.update_self .., fun ha => absurd (haccepted ha) hphase⟩
      frames := ⟨begun, hframes, hrows, by rwa [hnextStage, ← hstage]⟩ }

theorem Pending.schema (hs : s.stage = .emitting false)
    (hfit : s.encodedBytes + size ≤ MAX_EMITTED_BYTES) :
    Pending id (s.send .schema size (.emitting true)) := by
  obtain ⟨begun, hframes, hrows, hbegun⟩ := h.frames
  obtain rfl := hbegun false (by rw [hs]; rfl)
  refine { h with
    stage := rfl
    frames := ⟨true, ?_, by simp, by simp [State.send, Stage.begun]⟩
    rows := h.rows.trans (Nat.le_add_right ..)
    bytes := hfit }
  simp [State.send, hframes, hrows, queryFrames]

/-- Rows are numbered without gaps: their number stays far below the greatest one. -/
theorem Pending.row (hs : s.stage = .emitting true) (hsize : 0 < size)
    (hfit : s.encodedBytes + size ≤ MAX_EMITTED_BYTES) :
    Pending id { s.send (.row s.emittedRows) size (.emitting true) with
      emittedRows := min (s.emittedRows + 1) USIZE_MAX } := by
  obtain ⟨begun, hframes, hrows, hbegun⟩ := h.frames
  obtain rfl := hbegun true (by rw [hs]; rfl)
  have hle := h.rows
  have hmin : min (s.emittedRows + 1) USIZE_MAX = s.emittedRows + 1 := by
    unfold USIZE_MAX
    unfold MAX_EMITTED_BYTES at hfit
    omega
  rw [hmin]
  refine { h with
    stage := rfl
    frames := ⟨true, ?_, by simp, by simp [State.send, Stage.begun]⟩
    rows := by dsimp only [State.send]; omega
    bytes := hfit }
  simp [State.send, hframes, queryFrames, range_succ]

end

/-- **Every step keeps the invariant.** -/
theorem Consistent.step (h : Consistent id s) (hstep : Step id s s') : Consistent id s' := by
  rcases h with h | ⟨d, h⟩
  · have hs := h.stage
    cases hstep with
    | tick now => exact .inl { h with }
    | other call other hne => exact .inl (h.passes (passes_call hne call))
    | cancel => exact .inl h.cancel
    | phase phase next hnext => exact .inl (h.changePhase hnext)
    | fail e => exact .inl (h.result _)
    | schema size hstage _ hfit => exact .inl (h.schema hstage hfit)
    | row size hstage hsize hfit => exact .inl (h.row hstage hsize hfit)
    | respond => exact .inl (h.result _)
    | finish result now =>
      refine .inr (h.finish fun o => ?_)
      cases hf : terminalFrame s.emittedRows s.encodedBytes result o with
      | none => exact ⟨rfl, by simp⟩
      | some f =>
        refine ⟨rfl, fun g hg => ?_⟩
        cases hg
        exact reports_terminalFrame hf
    | drop => exact .inr (h.finish fun o => ⟨rfl, by simp⟩)
    | deliver frame hstage | lose frame hstage | cancelLocal hstage =>
      rw [hstage] at hs
      cases hs
  · have hs := h.stage
    refine .inr ⟨d, ?_⟩
    cases hstep with
    | tick now hnow =>
      have hsame : Passes id s.now 0 s.registry s.registry :=
        ⟨rfl, [], by simp, le_rfl, .inl (by simp)⟩
      exact h.passes hsame hnow
    | other call other hne => exact h.passes (passes_call hne call) le_rfl
    | cancel => exact h.cancel
    | deliver frame hstage => exact h.deliver hstage
    | lose frame hstage => exact h.leave (by simp [hstage]) (.inl rfl)
    | cancelLocal hstage => exact h.cancel.leave (by simp [State.cancel, hstage]) (.inr rfl)
    | phase phase next hnext =>
      rw [Stage.unfinished_of_begun (by simp [Stage.begun_nextPhase hnext])] at hs
      cases hs
    | fail e hbegun =>
      rw [Stage.unfinished_of_begun hbegun] at hs
      cases hs
    | drop now hunfinished =>
      rw [hs] at hunfinished
      cases hunfinished
    | schema _ hstage | row _ hstage | respond _ hstage | finish _ _ hstage =>
      rw [hstage] at hs
      cases hs

end Steps

theorem Starts.pending {id : String} {s : State} (h : Starts id s) : Pending id s where
  stage := by rw [h.stage]; rfl
  decisions := h.decisions
  entry := ⟨_, h.active, by simp [State.Accepted, h.replies]⟩
  fresh := h.fresh
  frames := ⟨false, by simp [h.frames, queryFrames], fun _ =>
    h.rows, by simp [h.stage, Stage.begun]⟩
  rows := by rw [h.rows]; exact Nat.zero_le _
  bytes := h.bytes

theorem Consistent.run {id : String} {s₀ s : State} (h₀ : Consistent id s₀)
    (h : Relation.ReflTransGen (Step id) s₀ s) : Consistent id s := by
  induction h with
  | refl => exact h₀
  | tail _ hstep ih => exact ih.step hstep

theorem complete_not_mem_queryFrames {begun : Bool} (n b : ℕ) :
    .complete n b ∉ queryFrames begun rows := by
  cases begun <;> simp [queryFrames]

/-- **Stream cancellation is decided once and reported consistently**, in every interleaving
of a started operation with cancel calls for it and with other operations. -/
theorem cancellation_consistent {id : String} {s₀ s : State} (h₀ : Starts id s₀)
    (h : Relation.ReflTransGen (Step id) s₀ s) :
    -- There is one outcome at most, and one at the end.
    (s.decisions.length ≤ 1 ∧ (s.stage = .done → s.decisions.length = 1)) ∧
    -- A cancel call that was accepted decides it.
    (s.Accepted → (∀ d ∈ s.decisions, d.outcome = .cancelled) ∧ ∀ n b, .complete n b ∉ s.frames) ∧
    -- A stream that was completed answers cancel calls from its tombstone.
    (∀ n b, .complete n b ∈ s.frames → ¬ s.Accepted ∧ ∃ d, s.decisions = [d] ∧
      d.outcome = .completed ∧
      ((s.registry.tryCancel id s.now).1 = ⟨.alreadyTerminal, some .completed⟩ ∨
        (s.registry.tryCancel id s.now).1 = ⟨.unknown, none⟩) ∧
      (OPERATION_TOMBSTONE_TTL ≤ d.completed → s.now < d.completed + OPERATION_TOMBSTONE_TTL →
        s.others < d.others + MAX_OPERATION_TOMBSTONES →
        (s.registry.tryCancel id s.now).1 = ⟨.alreadyTerminal, some .completed⟩)) ∧
    -- The frames of the query come in order, then one frame with the number of rows.
    ∃ begun rows tail, s.frames = queryFrames begun rows ++ tail ∧ (begun = false → rows = 0) ∧
      (tail = [] ∨ (∃ b, tail = [.complete rows b]) ∨ ∃ e, tail = [.error rows e]) := by
  rcases Consistent.run (.inl h₀.pending) h with h | ⟨d, h⟩
  · obtain ⟨begun, hframes, hrows, -⟩ := h.frames
    have hcomplete : ∀ n b, .complete n b ∉ s.frames := by
      rw [hframes]
      exact complete_not_mem_queryFrames
    have hdone : s.stage ≠ .done := by
      intro hdone
      have hs := h.stage
      rw [hdone] at hs
      cases hs
    refine ⟨by simp [h.decisions, hdone], fun _ => ⟨by simp [h.decisions], hcomplete⟩,
      fun n b hmem => absurd hmem (hcomplete n b), begun, s.emittedRows, [], by simpa using hframes,
      hrows, .inl rfl⟩
  · obtain ⟨begun, tail, hframes, hrows, htail⟩ := h.frames
    have hcompleted : ∀ n b, .complete n b ∈ s.frames → d.outcome = .completed := by
      intro n b hmem
      rw [hframes, mem_append] at hmem
      rcases htail with rfl | ⟨-, f, rfl, hreports⟩
      · simp [complete_not_mem_queryFrames] at hmem
      · obtain rfl : .complete n b = f := by simpa [complete_not_mem_queryFrames] using hmem
        exact hreports.2
    refine ⟨by simp [h.decisions], fun ha => ⟨by simp [h.decisions, h.accepted ha], fun n b hmem =>
      ?_⟩,
      fun n b hmem => ⟨fun ha => ?_, d, h.decisions, hcompleted n b hmem, ?_, ?_⟩,
      begun, s.emittedRows, tail, hframes, hrows, ?_⟩
    · cases (h.accepted ha).symm.trans (hcompleted n b hmem)
    · cases (h.accepted ha).symm.trans (hcompleted n b hmem)
    · rw [(tryCancel_of_inactive h.inactive _ h.tombstones).2, hcompleted n b hmem]
      split
      · exact .inl rfl
      · exact .inr rfl
    · intro hold hnow hothers
      obtain ⟨older, newer, hterminal, hnewer⟩ := h.kept hold hnow hothers
      obtain ⟨kept, hkept⟩ := expireFrom_keeps older newer (t := ⟨id, d.outcome, d.completed⟩)
        (cutoff_lt hold hnow) (by omega)
      rw [(tryCancel_of_inactive h.inactive _ h.tombstones).2, hcompleted n b hmem, if_pos]
      refine ⟨⟨id, d.outcome, d.completed⟩, ?_, rfl⟩
      rw [OperationRegistry.expire, hterminal, hkept]
      simp
    · rcases htail with rfl | ⟨-, f, rfl, hreports⟩
      · exact .inl rfl
      · cases f with
        | complete n b =>
          obtain ⟨rfl, -⟩ := hreports
          exact .inr (.inl ⟨b, rfl⟩)
        | error n e =>
          obtain ⟨rfl, -⟩ := hreports
          exact .inr (.inr ⟨e, rfl⟩)
        | accepted | schema | row => cases hreports

/-- A registered read. -/
def registeredRead : State where
  registry := ⟨fun id => if id = "o1" then some ⟨.registered, false⟩ else none, []⟩
  now := OPERATION_TOMBSTONE_TTL
  stage := .registered
  emittedRows := 0
  encodedBytes := 100
  frames := [.accepted]
  replies := []
  decisions := []
  others := 0

theorem registeredRead_starts : Starts "o1" registeredRead :=
  ⟨rfl, by simp [registeredRead], rfl, rfl, by decide, rfl, rfl, rfl⟩

/-- The read after its first row. -/
def readRow : State :=
  let s := ((registeredRead.changePhase "o1" .queued .admitted).changePhase "o1" .executing
    .prepared).changePhase "o1" .emitting (.emitting false)
  let s := s.send .schema 20 (.emitting true)
  { s.send (.row s.emittedRows) 5 (.emitting true) with
    emittedRows := min (s.emittedRows + 1) USIZE_MAX }

theorem readRow_run : Relation.ReflTransGen (Step "o1") registeredRead readRow :=
  .head (.phase .queued .admitted rfl) <| .head (.phase .executing .prepared rfl) <|
    .head (.phase .emitting (.emitting false) rfl) <|
    .head (.schema 20 rfl (by decide) (by decide)) <|
    .single (.row 5 rfl (by decide) (by decide))

/-- A read that sends two rows and completes answers a later cancel call from its
tombstone; one that is cancelled after its first row reports one row. -/
theorem cancellation_consistent_two_rows : Starts "o1" registeredRead ∧
    (∃ s, Relation.ReflTransGen (Step "o1") registeredRead s ∧
      s.frames = [.accepted, .schema, .row 0, .row 1, .complete 2 130] ∧ ¬s.Accepted ∧
      (s.registry.tryCancel "o1" s.now).1 = ⟨.alreadyTerminal, some .completed⟩) ∧
    ∃ s e, Relation.ReflTransGen (Step "o1") registeredRead s ∧ s.Accepted ∧
      s.frames = [.accepted, .schema, .row 0, .error 1 e] ∧
      ∀ d ∈ s.decisions, d.outcome = .cancelled := by
  refine ⟨registeredRead_starts, ?_, ?_⟩
  · have hrun := readRow_run.trans (.head (.row 5 rfl (by decide) (by decide)) <|
      .head (.respond true rfl) <| .head (.finish (.ok ()) _ rfl le_rfl) <|
      .single (.deliver (.complete 2 130) rfl))
    obtain ⟨-, -, hcompleted, -⟩ := cancellation_consistent registeredRead_starts hrun
    obtain ⟨haccepted, d, hd, -, -, hreply⟩ :=
      hcompleted 2 130 (mem_append_right _ (mem_singleton_self _))
    cases hd
    exact ⟨_, hrun, rfl, haccepted, hreply (by decide) (by decide) (by decide)⟩
  · have hrun := readRow_run.trans (.head .cancel <| .head (.respond true rfl) <|
      .head (.finish (.ok ()) _ rfl le_rfl) <| .single (.deliver _ rfl))
    have haccepted : ∃ reply ∈ [CancelResult.mk .accepted none], reply.status = .accepted :=
      ⟨_, mem_singleton_self _, rfl⟩
    exact ⟨_, _, hrun, haccepted, rfl,
      ((cancellation_consistent registeredRead_starts hrun).2.1 haccepted).1⟩

end UnionId.Server
