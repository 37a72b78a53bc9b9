import UnionId.Engine.Insert

/-!
# Scripts are atomic

A script either has the effect of all its statements, one after another, in a single
commit, or it has no effect. `Sequential` says what the statements do in turn, guards
included, on a complete candidate; the engine's loop is compared with it on both of its
paths, and `Commits` lists all that a commit can do to an engine.
-/
namespace UnionId.Scripts

open Lib Engine

variable {Body Detail : Type}

/-! ## The effect of statements in turn -/

/-- The statements take `db` to `db'`, one after another, and every guard holds of the rows
that the mutation before it affected; `affected` is that number at the start. -/
inductive Sequential (run : Database → Body → Result (QueryResponse Detail × Database)) :
    Database → Option ℕ → List (Statement Body) → Database → Prop where
  | nil (db : Database) (affected : Option ℕ) : Sequential run db affected [] db
  | guard {db db' : Database} {actual expected : ℕ} {op : CmpOp} {rest : List (Statement Body)} :
      satisfies actual op expected = true → Sequential run db (some actual) rest db' →
      Sequential run db (some actual) (.expect op expected :: rest) db'
  | statement {db next db' : Database} {affected : Option ℕ} {kind : StatementKind} {body : Body}
      {response : QueryResponse Detail} {rest : List (Statement Body)} :
      run db body = .ok (response, next) → Sequential run next response.affectedRows rest db' →
      Sequential run db affected (.run kind body :: rest) db'

/-- The engine's loop runs the statements in turn. -/
theorem Sequential.of_runStatements
    {run : Database → Body → Result (QueryResponse Detail × Database)}
    {deadline : ℕ → Result Unit} {summaries : Bool} {statements : List (Statement Body)}
    {index : ℕ} {state final : RunState Detail}
    (h : runStatements run deadline summaries index state statements = .ok final) :
    Sequential run state.db state.response.affectedRows statements final.db := by
  induction statements generalizing index state with
  | nil =>
    cases h
    exact .nil _ _
  | cons statement rest ih =>
    simp only [runStatements, bind_eq_ok] at h
    obtain ⟨_, -, next, hnext, hrest⟩ := h
    cases statement with
    | expect op expected =>
      simp only [runStatement] at hnext
      split at hnext
      · cases hnext
      · rename_i actual hactual
        obtain ⟨hsatisfied, hnext⟩ := of_required hnext
        cases hnext
        have hseq := ih hrest
        dsimp only at hseq
        rw [hactual] at hseq ⊢
        exact .guard hsatisfied hseq
    | run kind body =>
      simp only [runStatement, bind_eq_ok] at hnext
      obtain ⟨⟨response, db⟩, hrun, hnext⟩ := hnext
      cases hnext
      exact .statement hrun (ih hrest)

/-- Statements that succeed with the same effect in another way have the same effect in turn. -/
theorem Sequential.imp {run run' : Database → Body → Result (QueryResponse Detail × Database)}
    (h : ∀ {db body r db'}, run db body = .ok (r, db') →
      ∃ r', run' db body = .ok (r', db') ∧ r'.affectedRows = r.affectedRows)
    {db db' : Database} {affected : Option ℕ} {statements : List (Statement Body)}
    (hs : Sequential run db affected statements db') :
    Sequential run' db affected statements db' := by
  induction hs with
  | nil db affected => exact .nil db affected
  | guard hsatisfied _ ih => exact .guard hsatisfied ih
  | statement hrun _ ih =>
    obtain ⟨r', hrun', haffected⟩ := h hrun
    exact .statement hrun' (haffected ▸ ih)

/-- What every statement keeps, the statements in turn keep. -/
theorem Sequential.invariant {run : Database → Body → Result (QueryResponse Detail × Database)}
    {P : Database → Prop} (h : ∀ {db body r db'}, P db → run db body = .ok (r, db') → P db')
    {db db' : Database} {affected : Option ℕ} {statements : List (Statement Body)}
    (hs : Sequential run db affected statements db') (hP : P db) : P db' := by
  induction hs with
  | nil => exact hP
  | guard _ _ ih => exact ih hP
  | statement hrun _ ih => exact ih (h hP hrun)

section Execution
variable [Executor Body Detail]

/-- The database that a script starts from: a candidate if it can write. -/
def Engine.start (e : Engine Detail) (statements : List (Statement Body)) : Database :=
  if statements.any Statement.isMutating
  then Executor.beginGenerationRequest Body Detail e.committed.db.db else e.committed.db.db

/-- What one statement of a script means: its execution on a complete candidate, if the script
can write. -/
def Engine.meaning (e : Engine Detail) (mutating : Bool) (db : Database) (body : Body) :
    Result (QueryResponse Detail × Database) :=
  let state : DatabaseState := { e.committed.db with db }
  if mutating then Executor.execute state body
  else do
    let response ← Executor.executeRead state body
    .ok (response, db)

/-- The statements of the script take the committed database to `db`. -/
def Engine.Effect (e : Engine Detail) (statements : List (Statement Body)) (db : Database) :
    Prop :=
  Sequential (e.meaning (statements.any Statement.isMutating)) (e.start statements) none
    statements db

variable {e : Engine Detail}

/-- On both paths a statement that succeeds has its effect on a complete candidate. -/
theorem Engine.meaning_of_run {statements : List (Statement Body)} {db db' : Database} {body : Body}
    {r : QueryResponse Detail} (h : e.run statements db body = .ok (r, db')) :
    ∃ r', e.meaning (statements.any Statement.isMutating) db body = .ok (r', db') ∧
      r'.affectedRows = r.affectedRows := by
  unfold run at h
  unfold meaning
  split at h
  · rename_i hmutating
    rw [if_pos hmutating]
    split at h
    · exact Executor.executeBounded_effect h
    · exact ⟨r, h, rfl⟩
  · rename_i hread
    rw [if_neg hread]
    exact ⟨r, h, rfl⟩

theorem Engine.effect_of_runScript {env : Environment}
    {statements : List (Statement Body)} {state : RunState Detail}
    (h : e.runScript env statements = .ok state) : e.Effect statements state.db := by
  simp only [runScript, bind_eq_ok] at h
  obtain ⟨candidate, hcandidate, final, hfinal, _, -, _, -, h⟩ := h
  cases h
  have hstart : candidate = e.start statements := by
    unfold mutableCandidate at hcandidate
    unfold start
    split at hcandidate
    · obtain ⟨_, -, rfl⟩ := of_bind_pure hcandidate
      simp [*]
    · cases hcandidate
      simp [*]
  subst hstart
  exact (Sequential.of_runStatements hfinal).imp meaning_of_run

theorem checkedSucc_eq_ok {n m : ℕ} {message : Message} (h : checkedSucc n message = .ok m) :
    m = n + 1 := by
  unfold checkedSucc at h
  obtain ⟨-, h⟩ := of_required h
  cases h
  rfl

omit [Executor Body Detail] in
theorem Engine.nextState_eq_ok {schemaChanging : Bool} {db : Database}
    {candidate : DatabaseState} (h : e.nextState schemaChanging db = .ok candidate) :
    candidate = ⟨e.committed.db.sequence + 1,
      e.committed.db.schemaRevision + (if schemaChanging then 1 else 0), db⟩ := by
  simp only [nextState, bind_eq_ok] at h
  obtain ⟨revision, hrevision, sequence, hsequence, h⟩ := h
  cases h
  have hr : revision = e.committed.db.schemaRevision + (if schemaChanging then 1 else 0) := by
    cases schemaChanging
    · cases hrevision
      rfl
    · exact checkedSucc_eq_ok (by simpa [advanceSchemaRevision] using hrevision)
  rw [checkedSucc_eq_ok hsequence, hr]

/-- What a script would commit is its effect, at the next sequence. -/
theorem Engine.prepareScript_eq_ok [ReceiptEncoding Detail]
    {env : Environment} {statements : List (Statement Body)}
    {idempotency : Option PendingIdempotency} {candidate : DatabaseState}
    {response : QueryResponse Detail} {receipts : Option (ReceiptMap Detail)}
    (h : e.prepareScript env statements idempotency = .ok (candidate, response, receipts)) :
    e.Effect statements candidate.db ∧
      candidate.sequence = e.committed.db.sequence + 1 ∧
      candidate.schemaRevision = e.committed.db.schemaRevision +
        (if statements.any Statement.changesSchema then 1 else 0) ∧
      (idempotency = none → receipts = none) := by
  simp only [prepareScript, bind_eq_ok] at h
  obtain ⟨_, -, state, hstate, next, hnext, ⟨response', receipts'⟩, hreceipt, h⟩ := h
  cases h
  have hcandidate := nextState_eq_ok hnext
  subst hcandidate
  refine ⟨effect_of_runScript hstate, rfl, rfl, ?_⟩
  rintro rfl
  cases hreceipt
  rfl

end Execution

/-! ## What a commit can do -/

/-- Storage and execution mode are the same. -/
structure Engine.SameMode (e e' : Engine Detail) : Prop where
  storageMode : e'.storageMode = e.storageMode
  wal : e'.wal.isSome = e.wal.isSome
  snapshot : e'.snapshot = e.snapshot
  snapshotEvery : e'.snapshotEvery = e.snapshotEvery
  durable : e'.durable = e.durable
  writeFailed : e'.writeFailed = e.writeFailed
  readReopenRequired : e'.readReopenRequired = e.readReopenRequired
  readOnly : e'.readOnly = e.readOnly
  snapshotExecution : e'.snapshotExecution = e.snapshotExecution

theorem Engine.SameMode.refl (e : Engine Detail) : e.SameMode e :=
  ⟨rfl, rfl, rfl, rfl, rfl, rfl, rfl, rfl, rfl⟩

theorem Engine.SameMode.wal_eq_none {e e' : Engine Detail} (h : e.SameMode e')
    (hwal : e'.wal = none) : e.wal = none := by
  simpa [hwal] using h.wal

/-- A snapshot changes neither the committed view nor the receipts in the file. -/
structure Engine.Saves (e e' : Engine Detail) : Prop where
  mode : e.SameMode e'
  committed : e'.committed = e.committed
  file : e'.file = e.file ∨ e.snapshot = true ∧ e'.file = { e.file with db := e.committed.db }

theorem Engine.checkpoint_saves (e : Engine Detail) (env : Environment) :
    e.Saves (e.checkpoint env).1 := by
  unfold checkpoint
  split
  · exact ⟨.refl e, rfl, .inl rfl⟩
  · split
    · rename_i hsnapshot
      cases env.checkpoint with
      | saved =>
        exact ⟨⟨rfl, by simp, rfl, rfl, rfl, rfl, rfl, rfl, rfl⟩, rfl, .inr ⟨hsnapshot, rfl⟩⟩
      | saveFailed error => exact ⟨.refl e, rfl, .inl rfl⟩
      | truncateFailed error =>
        exact ⟨⟨rfl, rfl, rfl, rfl, rfl, rfl, rfl, rfl, rfl⟩, rfl, .inr ⟨hsnapshot, rfl⟩⟩
    · exact ⟨.refl e, rfl, .inl rfl⟩

/-- The engine shows `next`, and everything that is a matter of storage is as before. -/
structure Engine.Shows (e : Engine Detail) (next : CommittedView Detail) (e' : Engine Detail) :
    Prop where
  mode : e.SameMode e'
  committed : e'.committed = next
  file : e'.file = e.file ∨ e.snapshot = true ∧ e'.file = { e.file with db := next.db }

theorem Engine.publish_shows (e : Engine Detail) (env : Environment)
    (next : CommittedView Detail) (response : QueryResponse Detail) :
    e.Shows next (e.publish env next response).1 ∧
      (e.snapshotEvery = 0 → (e.publish env next response).2 = response) := by
  unfold publish
  dsimp only
  split
  · rename_i hdue
    refine ⟨?_, fun hnever => by omega⟩
    obtain ⟨⟨h₁, h₂, h₃, h₄, h₅, h₆, h₇, h₈, h₉⟩, hcommitted, hfile⟩ := checkpoint_saves
      { e with committed := next, writesSinceSnapshot := e.writesSinceSnapshot + 1 } env
    have hshows : e.Shows next (checkpoint
        { e with committed := next, writesSinceSnapshot := e.writesSinceSnapshot + 1 } env).1 :=
      ⟨⟨h₁, h₂, h₃, h₄, h₅, h₆, h₇, h₈, h₉⟩, hcommitted, hfile⟩
    split
    · rename_i heq
      rw [heq] at hshows
      exact hshows
    · rename_i heq
      rw [heq] at hshows
      exact hshows
  · exact ⟨⟨⟨rfl, rfl, rfl, rfl, rfl, rfl, rfl, rfl, rfl⟩, rfl, .inl rfl⟩, fun _ => rfl⟩

/-- The commit of this request has an uncertain outcome. -/
def Environment.Uncertain (env : Environment) (e : Engine Detail) : Prop :=
  (e.durable.isSome ∧ ∃ applied error, env.commit = .uncertain applied error) ∨
    (e.durable = none ∧ e.wal.isSome ∧ ∃ onDisk, env.wal = .failed onDisk)

theorem Environment.not_uncertain {env : Environment} {e : Engine Detail}
    (hdurable : e.durable.isSome) (hcommit : ∀ applied error,
      env.commit ≠ .uncertain applied error) :
    ¬ env.Uncertain e := by
  rintro (⟨-, applied, error, h⟩ | ⟨h, -⟩)
  · exact hcommit applied error h
  · rw [h] at hdurable
    cases hdurable

/-- The commit of `next` is begun: the store can hold it, its receipts pass the check before the
transaction, and a write-ahead log has something to record. -/
structure Engine.Accepts (Body : Type) {Detail : Type} [Executor Body Detail]
    [ReceiptEncoding Detail] (e : Engine Detail) (walSource : Option String)
    (next : CommittedView Detail) : Prop where
  capabilities : e.checkCapabilities Body next.db.db = .ok ()
  receipts : e.durable.isSome → ReceiptsValid next.receipts next.db.sequence
  logged : e.durable = none → e.wal.isSome → walSource.isSome

/-- All that the commit of `next` can do: it is refused before it is begun, or definitely fails,
and nothing changes; it is published; it is durable but cannot be read; or its outcome is
uncertain. -/
inductive Commits (Body : Type) {Detail : Type} [Executor Body Detail] [ReceiptEncoding Detail]
    (e : Engine Detail) (env : Environment) (walSource : Option String)
    (next : CommittedView Detail) (response : QueryResponse Detail) :
    Engine Detail × Result (QueryResponse Detail) → Prop where
  | refused (error : Error) :
      ¬ e.Accepts Body walSource next ∨ (e.durable.isSome ∧ ∃ cause, env.commit = .definite cause) →
      Commits Body e env walSource next response (e, .error error)
  | shown (e' : Engine Detail) (reply : QueryResponse Detail) : e.Accepts Body walSource next →
      Engine.Shows (if e.durable.isSome then { e with file := next } else e) next e' →
      (e.durable.isSome → env.commit = .committed) →
      ¬ env.Uncertain e → (e.snapshotEvery = 0 → reply = response) →
      Commits Body e env walSource next response (e', .ok reply)
  | unseen (error : Error) : e.Accepts Body walSource next → e.durable.isSome →
      env.commit = .committed → error.code = .E_STORAGE_REOPEN_REQUIRED →
      Commits Body e env walSource next response
        ({ e with file := next, durable := none, writeFailed := true, readReopenRequired := true },
          .error error)
  | unknown (e' : Engine Detail) (error : Error) : e.Accepts Body walSource next →
      env.Uncertain e → e'.committed = e.committed → e'.writeFailed = true →
      Commits Body e env walSource next response (e', .error error)

section Commit
variable [Executor Body Detail] [ReceiptEncoding Detail] {e : Engine Detail} {env : Environment}
  {next : CommittedView Detail} {walSource : Option String} {response : QueryResponse Detail}

theorem Commits.of_shows {out : Engine Detail × QueryResponse Detail}
    (haccepts : e.Accepts Body walSource next)
    (hshows : Engine.Shows (if e.durable.isSome then { e with file := next } else e) next out.1)
    (hdurable : e.durable.isSome → env.commit = .committed) (hcertain : ¬ env.Uncertain e)
    (hreply : e.snapshotEvery = 0 → out.2 = response) :
    Commits Body e env walSource next response (out.map id .ok) :=
  .shown out.1 out.2 haccepts hshows hdurable hcertain hreply

omit [Executor Body Detail] in
/-- The store checks the receipts; then the outcome is the environment's. -/
theorem durableCommit_eq (env : Environment) (next : CommittedView Detail) :
    (ReceiptsValid next.receipts next.db.sequence ∧ durableCommit env next = env.commit) ∨
    (¬ ReceiptsValid next.receipts next.db.sequence ∧
      ∃ error, durableCommit env next = .definite error) := by
  unfold durableCommit
  split
  · rename_i error hinvalid
    refine .inr ⟨fun hvalid => ?_, error, rfl⟩
    rw [validateReceipts_eq_ok_iff.mpr hvalid] at hinvalid
    cases hinvalid
  · rename_i size hvalid
    refine .inl ⟨validateReceipts_eq_ok_iff.mp ?_, rfl⟩
    rw [hvalid, validateReceipts_eq_size hvalid]

/-- A commit to a durable store. -/
theorem Engine.commitCandidate_durable {candidate : DatabaseState}
    {receipts : Option (ReceiptMap Detail)} (hdurable : e.durable.isSome)
    (hcapable : e.checkCapabilities Body candidate.db = .ok ()) :
    Commits Body e env walSource ⟨candidate, receipts.getD e.committed.receipts⟩ response
      (e.commitCandidate Body env candidate walSource response receipts) := by
  simp only [commitCandidate, hcapable, hdurable, if_true]
  rcases durableCommit_eq env ⟨candidate, receipts.getD e.committed.receipts⟩ with
    ⟨hvalid, hcommit⟩ | ⟨hinvalid, error, hcommit⟩
  · have haccepts : e.Accepts Body walSource ⟨candidate, receipts.getD e.committed.receipts⟩ :=
      ⟨hcapable, fun _ => hvalid, fun hnone => by rw [hnone] at hdurable; cases hdurable⟩
    rw [hcommit]
    split
    · rename_i hcommitted
      split
      · obtain ⟨hshows, hreply⟩ := publish_shows
          { e with file := ⟨candidate, receipts.getD e.committed.receipts⟩ } env
          ⟨candidate, receipts.getD e.committed.receipts⟩ response
        refine .of_shows haccepts ?_ (fun _ => hcommitted)
          (Environment.not_uncertain hdurable (by simp [hcommitted])) hreply
        rw [if_pos hdurable]
        exact hshows
      · exact .unseen _ haccepts hdurable hcommitted rfl
    · rename_i error hdefinite
      exact .refused _ (.inr ⟨hdurable, error, hdefinite⟩)
    · rename_i applied error huncertain
      exact .unknown _ _ haccepts (.inl ⟨hdurable, applied, error, huncertain⟩) rfl rfl
  · rw [hcommit]
    exact .refused _ (.inl fun haccepts => hinvalid (haccepts.receipts hdurable))

/-- A commit without a durable store: to a write-ahead log, or in memory. -/
theorem Engine.commitCandidate_volatile {candidate : DatabaseState}
    {receipts : Option (ReceiptMap Detail)} (hdurable : ¬ e.durable.isSome)
    (hcapable : e.checkCapabilities Body candidate.db = .ok ()) :
    Commits Body e env walSource ⟨candidate, receipts.getD e.committed.receipts⟩ response
      (e.commitCandidate Body env candidate walSource response receipts) := by
  have hnone : e.durable = none := by simpa using hdurable
  have hreceipts {P : Prop} (h : e.durable.isSome) : P := absurd h hdurable
  simp only [commitCandidate, hcapable, hdurable, Bool.false_eq_true, if_false]
  split
  · rename_i log hwal
    split
    · exact .refused _ (.inl fun haccepts => by
        simpa using haccepts.logged hnone (by simp [hwal]))
    · rename_i source
      have haccepts : e.Accepts Body (some source)
          ⟨candidate, receipts.getD e.committed.receipts⟩ := ⟨hcapable, hreceipts, fun _ _ => rfl⟩
      split
      · rename_i hdisk
        obtain ⟨⟨⟨h₁, h₂, h₃, h₄, h₅, h₆, h₇, h₈, h₉⟩, hcommitted, hfile⟩, hreply⟩ :=
          publish_shows { e with wal := some (log ++ [(candidate.sequence, source)]) } env
            ⟨candidate, receipts.getD e.committed.receipts⟩ response
        refine .of_shows haccepts ?_ hreceipts
          (by simp [Environment.Uncertain, hdurable, hdisk]) hreply
        rw [if_neg hdurable]
        exact ⟨⟨h₁, by simpa [hwal] using h₂, h₃, h₄, h₅, h₆, h₇, h₈, h₉⟩, hcommitted, hfile⟩
      · rename_i onDisk hdisk
        exact .unknown _ _ haccepts (.inr ⟨hnone, by simp [hwal], onDisk, hdisk⟩) rfl rfl
  · rename_i hwal
    obtain ⟨hshows, hreply⟩ := publish_shows e env
      ⟨candidate, receipts.getD e.committed.receipts⟩ response
    refine .of_shows ⟨hcapable, hreceipts, fun _ hsome => by simp [hwal] at hsome⟩ ?_ hreceipts
      (by simp [Environment.Uncertain, hdurable, hwal]) hreply
    rw [if_neg hdurable]
    exact hshows

theorem Engine.commitCandidate_commits (Body : Type) [Executor Body Detail] (e : Engine Detail)
    (env : Environment) (candidate : DatabaseState) (walSource : Option String)
    (response : QueryResponse Detail) (receipts : Option (ReceiptMap Detail)) :
    Commits Body e env walSource ⟨candidate, receipts.getD e.committed.receipts⟩ response
      (e.commitCandidate Body env candidate walSource response receipts) := by
  cases hcapable : e.checkCapabilities Body candidate.db with
  | error error =>
    simp only [commitCandidate, hcapable]
    refine .refused _ (.inl fun haccepts => ?_)
    have hok := haccepts.capabilities
    dsimp only at hok
    rw [hcapable] at hok
    cases hok
  | ok _ =>
    by_cases hdurable : e.durable.isSome
    · exact commitCandidate_durable hdurable hcapable
    · exact commitCandidate_volatile hdurable hcapable

end Commit

/-! ## Scripts -/

section Atomic
variable [Executor Body Detail] [ReceiptEncoding Detail] {statements : List (Statement Body)}
  {e : Engine Detail}

theorem Engine.tryExecuteStatements_of_read (e : Engine Detail) (env : Environment)
    (h : ¬ statements.any Statement.isMutating) (walSource : Option String)
    (idempotency : Option PendingIdempotency) :
    (e.tryExecuteStatements env statements walSource idempotency).1 = e := by
  unfold tryExecuteStatements
  rw [if_neg h]

/-- A script that can write fails before its commit, or its effect is committed. -/
theorem Engine.tryExecuteStatements_cases (e : Engine Detail) (env : Environment)
    (hmutating : statements.any Statement.isMutating) (walSource : Option String)
    (idempotency : Option PendingIdempotency) :
    (∃ error, e.prepareScript env statements idempotency = .error error ∧
      e.tryExecuteStatements env statements walSource idempotency = (e, .error error)) ∨
    ∃ candidate response receipts e' reply,
      e.prepareScript env statements idempotency = .ok (candidate, response, receipts) ∧
      Commits Body e env walSource ⟨candidate, receipts.getD e.committed.receipts⟩ response
        (e', reply) ∧
      e.tryExecuteStatements env statements walSource idempotency =
        (e', reply.map (e'.withSchema Body)) := by
  unfold tryExecuteStatements
  rw [if_pos hmutating]
  cases hprepare : e.prepareScript env statements idempotency with
  | error error => exact .inl ⟨error, rfl, rfl⟩
  | ok prepared =>
    obtain ⟨candidate, response, receipts⟩ := prepared
    right
    have hcommits := e.commitCandidate_commits Body env candidate walSource response receipts
    cases hcommit : e.commitCandidate Body env candidate walSource response receipts with
    | mk e' reply =>
      rw [hcommit] at hcommits
      refine ⟨candidate, response, receipts, e', reply, rfl, hcommits, ?_⟩
      dsimp only
      rw [hcommit]
      cases reply <;> rfl

/-- After a storage failure no script that can write is admitted. -/
theorem Engine.prepareScript_of_writeFailed (hfailed : e.writeFailed = true) (env : Environment)
    (hmutating : statements.any Statement.isMutating) (idempotency : Option PendingIdempotency) :
    ∃ error, e.prepareScript env statements idempotency = .error error := by
  cases hprepare : e.prepareScript env statements idempotency with
  | error error => exact ⟨error, rfl⟩
  | ok prepared =>
    exfalso
    unfold prepareScript at hprepare
    obtain ⟨_, hadmitted, -⟩ := of_bind hprepare
    simp only [admission, hmutating, hfailed, bind_eq_ok] at hadmitted
    obtain ⟨_, -, hadmitted⟩ := hadmitted
    iterate 6
      split at hadmitted
      · cases hadmitted
    simp at *

theorem Engine.tryExecuteStatements_of_writeFailed
    (hfailed : e.writeFailed = true) (env : Environment) (statements : List (Statement Body))
    (walSource : Option String) (idempotency : Option PendingIdempotency) :
    (e.tryExecuteStatements env statements walSource idempotency).1 = e := by
  by_cases hmutating : statements.any Statement.isMutating
  · obtain ⟨error, herror⟩ := e.prepareScript_of_writeFailed hfailed env hmutating idempotency
    simp [tryExecuteStatements, hmutating, herror]
  · exact e.tryExecuteStatements_of_read env hmutating walSource idempotency

theorem Engine.tryExecuteWithParams_of_writeFailed
    (hfailed : e.writeFailed = true) (env : Environment) (request : Request Body)
    (idempotency : Option PendingIdempotency) :
    (e.tryExecuteWithParamsAndIdempotency env request idempotency).1 = e := by
  unfold tryExecuteWithParamsAndIdempotency
  split
  · rfl
  · split
    · rfl
    · split
      · rfl
      · exact tryExecuteStatements_of_writeFailed hfailed env _ _ idempotency

theorem Engine.executeIdempotent_of_writeFailed
    (hfailed : e.writeFailed = true) (env : Environment) (key digest : String)
    (request : Request Body) : (e.executeIdempotent env key digest request).1 = e := by
  have hsame := e.tryExecuteWithParams_of_writeFailed hfailed env request (some ⟨key, digest⟩)
  unfold executeIdempotent
  split
  · rfl
  · rfl
  · split
    · split <;> rfl
    · split
      · rfl
      · exact hsame

theorem Engine.pruneIdempotencyReceipts_of_writeFailed (Body : Type) [Executor Body Detail]
    (hfailed : e.writeFailed = true) (env : Environment) (options : IdempotencyPruneOptions) :
    ∃ error, e.pruneIdempotencyReceipts Body env options = (e, .error error) := by
  unfold pruneIdempotencyReceipts
  dsimp only
  split
  · exact ⟨_, rfl⟩
  all_goals
    rename_i hselection
    exfalso
    simp only [hfailed] at hselection
    obtain ⟨-, hselection⟩ := of_refused hselection
    split at hselection <;> cases hselection

theorem Engine.applyMigration_of_writeFailed (Body : Type) [Executor Body Detail]
    (hfailed : e.writeFailed = true) (env : Environment) (migrate : Database → Result Database) :
    ∃ error, e.applyMigration Body env migrate = (e, .error error) := by
  unfold applyMigration
  dsimp only
  split
  · exact ⟨_, rfl⟩
  · rename_i hcheck
    exfalso
    simp only [hfailed] at hcheck
    obtain ⟨-, hcheck⟩ := of_refused hcheck
    split at hcheck <;> cases hcheck

/-- No request changes the engine, and no write succeeds, until the database is opened
again. -/
structure Engine.WritesDisabled (Body : Type) [Executor Body Detail] (e : Engine Detail) :
    Prop where
  unchanged : ∀ ops : List (Op Body), (∀ op ∈ ops, ∀ c, op ≠ .reopen c) →
    ops.foldl Engine.after e = e
  script : ∀ (env : Environment) (statements : List (Statement Body)) (walSource : Option String)
    (idempotency : Option PendingIdempotency), statements.any Statement.isMutating →
    ∃ error, (e.tryExecuteStatements env statements walSource idempotency).2 = .error error
  prune : ∀ (env : Environment) (options : IdempotencyPruneOptions),
    ∃ error, (e.pruneIdempotencyReceipts Body env options).2 = .error error
  migrate : ∀ (env : Environment) (migrate : Database → Result Database),
    ∃ error, (e.applyMigration Body env migrate).2 = .error error

theorem Engine.after_of_writeFailed (hfailed : e.writeFailed = true)
    {op : Op Body} (hop : ∀ c, op ≠ .reopen c) : e.after op = e := by
  cases op with
  | execute env request => exact tryExecuteWithParams_of_writeFailed hfailed env request none
  | executeIdempotent env key digest request =>
    exact executeIdempotent_of_writeFailed hfailed env key digest request
  | prune env options =>
    obtain ⟨error, h⟩ := pruneIdempotencyReceipts_of_writeFailed Body hfailed env
      options
    exact congrArg Prod.fst h
  | migrate env migrate =>
    obtain ⟨error, h⟩ := applyMigration_of_writeFailed Body hfailed env migrate
    exact congrArg Prod.fst h
  | checkpoint env => simp [after, checkpoint, hfailed]
  | reopen c => exact absurd rfl (hop c)

theorem Engine.writesDisabled (hfailed : e.writeFailed = true) : e.WritesDisabled Body where
  unchanged ops hops := by
    induction ops with
    | nil => rfl
    | cons op ops ih =>
      rw [List.foldl_cons, after_of_writeFailed hfailed (hops op (by simp))]
      exact ih fun op' hop' => hops op' (by simp [hop'])
  script env statements walSource idempotency hmutating := by
    obtain ⟨error, herror⟩ := e.prepareScript_of_writeFailed hfailed env hmutating idempotency
    exact ⟨error, by simp [tryExecuteStatements, hmutating, herror]⟩
  prune env options := by
    obtain ⟨error, h⟩ := pruneIdempotencyReceipts_of_writeFailed Body hfailed env
      options
    exact ⟨error, congrArg Prod.snd h⟩
  migrate env migrate := by
    obtain ⟨error, h⟩ := applyMigration_of_writeFailed Body hfailed env migrate
    exact ⟨error, congrArg Prod.snd h⟩

/-- The script is prepared and its commit begun. -/
def Engine.ReachesCommit (e : Engine Detail) (env : Environment)
    (statements : List (Statement Body)) (walSource : Option String)
    (idempotency : Option PendingIdempotency) : Prop :=
  ∃ candidate response receipts,
    e.prepareScript env statements idempotency = .ok (candidate, response, receipts) ∧
    e.Accepts Body walSource ⟨candidate, receipts.getD e.committed.receipts⟩

/-- What the outcome of a script may be. -/
structure Engine.AtomicOutcome (e : Engine Detail) (env : Environment)
    (statements : List (Statement Body)) (walSource : Option String)
    (idempotency : Option PendingIdempotency)
    (out : Engine Detail × Result (QueryResponse Detail)) : Prop where
  /-- If a statement fails or a guard is not met, nothing changes. -/
  noEffect : (¬ ∃ db, e.Effect statements db) → out.1 = e ∧ ∃ error, out.2 = .error error
  /-- If the commit is not begun, nothing changes. -/
  unreached : statements.any Statement.isMutating →
    ¬ e.ReachesCommit env statements walSource idempotency →
    out.1 = e ∧ ∃ error, out.2 = .error error
  /-- If the durable commit definitely fails, nothing changes. -/
  definite : statements.any Statement.isMutating → e.durable.isSome →
    (∃ error, env.commit = .definite error) → out.1 = e ∧ ∃ error, out.2 = .error error
  /-- Any other failure changes nothing either, unless the commit itself took place or is
  uncertain. -/
  failure : ∀ error, out.2 = .error error → out.1 = e ∨
    e.ReachesCommit env statements walSource idempotency ∧ out.1.WritesDisabled Body ∧
      (env.Uncertain e ∨
        e.durable.isSome ∧ env.commit = .committed ∧ out.1.readReopenRequired = true)
  /-- A script that writes and succeeds takes one sequence number, and what is committed is
  its effect. -/
  success : statements.any Statement.isMutating → ∀ reply, out.2 = .ok reply →
    e.Effect statements out.1.committed.db.db ∧
    out.1.committed.db.sequence = e.committed.db.sequence + 1 ∧
    out.1.committed.db.schemaRevision = e.committed.db.schemaRevision +
      (if statements.any Statement.changesSchema then 1 else 0) ∧
    (e.durable.isSome → out.1.file = out.1.committed) ∧
    (idempotency = none → out.1.committed.receipts = e.committed.receipts)
  /-- A script that does not write changes nothing. -/
  read : ¬ statements.any Statement.isMutating → out.1 = e
  /-- After a commit whose outcome is uncertain, the committed view is as before and no write is
  accepted. -/
  uncertain : statements.any Statement.isMutating →
    e.ReachesCommit env statements walSource idempotency → env.Uncertain e →
    out.1.committed = e.committed ∧ out.1.WritesDisabled Body ∧ ∃ error, out.2 = .error error

variable {env : Environment} {walSource : Option String} {idempotency : Option PendingIdempotency}

theorem Commits.file_eq {e' : Engine Detail} {next : CommittedView Detail}
    {response reply : QueryResponse Detail}
    (h : Commits Body e env walSource next response (e', .ok reply)) :
    e'.committed = next ∧ (e.durable.isSome → e'.file = next) := by
  cases h with
  | shown _ _ _ hshows _ _ _ =>
    refine ⟨hshows.committed, fun hdurable => ?_⟩
    have hfile := hshows.file
    rw [if_pos hdurable] at hfile
    rcases hfile with hfile | ⟨-, hfile⟩ <;> exact hfile

theorem Engine.AtomicOutcome.of_read (hread : ¬ statements.any Statement.isMutating) :
    e.AtomicOutcome env statements walSource idempotency
      (e.tryExecuteStatements env statements walSource idempotency) := by
  have hsame := tryExecuteStatements_of_read e env hread walSource idempotency
  refine ⟨fun hnone => ⟨hsame, ?_⟩, fun h => absurd h hread, fun h => absurd h hread,
    fun _ _ => .inl hsame, fun h => absurd h hread, fun _ => hsame, fun h => absurd h hread⟩
  unfold tryExecuteStatements
  rw [if_neg hread]
  dsimp only
  cases hrun : e.runScript env statements with
  | ok state => exact absurd ⟨_, effect_of_runScript hrun⟩ hnone
  | error error =>
    cases e.admission env statements with
    | error error' => exact ⟨error', rfl⟩
    | ok _ => exact ⟨error, rfl⟩

/-- A script that fails before its commit is begun, or whose commit definitely fails. -/
theorem Engine.AtomicOutcome.of_refused (hmutating : statements.any Statement.isMutating)
    (hrefused : ¬ e.ReachesCommit env statements walSource idempotency ∨
      (e.durable.isSome ∧ ∃ cause, env.commit = .definite cause)) (error : Error) :
    e.AtomicOutcome env statements walSource idempotency (e, .error error) := by
  have hcertain (hreached : e.ReachesCommit env statements walSource idempotency) :
      ¬ env.Uncertain e := by
    rcases hrefused with hunreached | ⟨hdurable, cause, hcommit⟩
    · exact absurd hreached hunreached
    · exact Environment.not_uncertain hdurable (by simp [hcommit])
  exact ⟨fun _ => ⟨rfl, error, rfl⟩, fun _ _ => ⟨rfl, error, rfl⟩, fun _ _ _ => ⟨rfl, error, rfl⟩,
    fun _ _ => .inl rfl, fun _ _ h => (by cases h), fun h => absurd hmutating h,
    fun _ hreached huncertain => absurd huncertain (hcertain hreached)⟩

/-- The commit of a prepared script has one of the outcomes. -/
theorem Engine.AtomicOutcome.of_commits (hmutating : statements.any Statement.isMutating)
    {candidate : DatabaseState} {response : QueryResponse Detail}
    {receipts : Option (ReceiptMap Detail)} {e' : Engine Detail}
    {reply : Result (QueryResponse Detail)}
    (hprepare : e.prepareScript env statements idempotency = .ok (candidate, response, receipts))
    (hcommits : Commits Body e env walSource ⟨candidate, receipts.getD e.committed.receipts⟩
      response (e', reply)) :
    e.AtomicOutcome env statements walSource idempotency (e', reply.map (e'.withSchema Body)) := by
  obtain ⟨heffect, hsequence, hrevision, hreceipts⟩ := Engine.prepareScript_eq_ok hprepare
  have hnone : ¬ ¬ ∃ db, e.Effect statements db := not_not.mpr ⟨_, heffect⟩
  have hreached (haccepts : e.Accepts Body walSource
      ⟨candidate, receipts.getD e.committed.receipts⟩) :
      e.ReachesCommit env statements walSource idempotency :=
    ⟨candidate, response, receipts, hprepare, haccepts⟩
  cases hcommits with
  | refused error hrefused =>
    refine .of_refused hmutating (hrefused.imp_left ?_) error
    rintro hrejects ⟨candidate', response', receipts', hprepare', haccepts⟩
    cases hprepare.symm.trans hprepare'
    exact hrejects haccepts
  | shown _ reply haccepts hshows hdurable hcertain hreply =>
    refine ⟨fun h => absurd h hnone, fun _ h => absurd (hreached haccepts) h,
      fun _ hsome ⟨error, h⟩ => ?_, fun _ h => (by cases h), fun _ _ _ => ?_,
      fun h => absurd hmutating h, fun _ _ h => absurd h hcertain⟩
    · rw [hdurable hsome] at h
      cases h
    · obtain ⟨hnext, hfile⟩ := Commits.file_eq
        (.shown _ reply haccepts hshows hdurable hcertain hreply)
      dsimp only
      rw [hnext]
      refine ⟨heffect, hsequence, hrevision, hfile, fun h => ?_⟩
      rw [hreceipts h]
      rfl
  | unseen error haccepts hdurable hcommit hcode =>
    refine ⟨fun h => absurd h hnone, fun _ h => absurd (hreached haccepts) h,
      fun _ _ ⟨error', h⟩ => ?_, fun _ _ => .inr ⟨hreached haccepts, Engine.writesDisabled rfl,
        .inr ⟨hdurable, hcommit, rfl⟩⟩, fun _ _ h => (by cases h), fun h => absurd hmutating h,
      fun _ _ huncertain => absurd huncertain
        (Environment.not_uncertain hdurable (by simp [hcommit]))⟩
    rw [hcommit] at h
    cases h
  | unknown _ error haccepts huncertain hcommitted hfailed =>
    refine ⟨fun h => absurd h hnone, fun _ h => absurd (hreached haccepts) h,
      fun _ hdurable ⟨error', h⟩ => ?_, fun _ _ => .inr ⟨hreached haccepts,
        Engine.writesDisabled hfailed, .inl huncertain⟩, fun _ _ h => (by cases h),
      fun h => absurd hmutating h,
      fun _ _ _ => ⟨hcommitted, Engine.writesDisabled hfailed, error, rfl⟩⟩
    exact absurd huncertain (Environment.not_uncertain hdurable (by simp [h]))

end Atomic

section Trees

attribute [local instance] treeExternal treeText

end Trees

end UnionId.Scripts
