import UnionId.Engine.Atomic

/-!
# Idempotency keys

Under an idempotency key a script is executed at most once: the commit that publishes its
effect also publishes a receipt, and while the receipt is there the request is answered
from it. Everything is said of the image, the view that survives (the database file under
redb, otherwise the committed view), over runs of requests whose commits succeed or
definitely fail.

## Main results

* `Coherent.after` — file, committed view and receipts stay consistent.
* `applications_le_one` — a request is applied at most once while its receipt is retained.
* `exactly_once` — replay, conflict, failure and reload.
-/
namespace UnionId.Scripts

open Lib Engine

variable {Body Detail : Type} [ReceiptEncoding Detail]

/-- The view that survives this engine. -/
def Engine.image (e : Engine Detail) : CommittedView Detail :=
  if e.storageMode = .redb then e.file else e.committed

/-- The receipts can be loaded again. -/
def CommittedView.Loadable (view : CommittedView Detail) : Prop :=
  ReceiptsValid view.receipts view.db.sequence

/-- A redb engine either shows what is in its file, or it waits to be opened again. Only
a write-ahead log has snapshots. -/
structure Engine.Coherent (e : Engine Detail) : Prop where
  committed : e.committed.Loadable
  file : e.storageMode = .redb → e.file.Loadable
  redb : e.durable.isSome → e.storageMode = .redb
  shown : e.storageMode = .redb → (e.durable.isSome ∧ e.file = e.committed) ∨ e.writeFailed = true
  snapshots : e.wal = none → e.snapshotEvery = 0
  unsaved : e.storageMode = .redb → e.snapshot = false

variable {e : Engine Detail}

/-- Where the committed view and the image differ, nothing can be written. -/
theorem Engine.Coherent.image_eq (h : e.Coherent) (hw : e.writeFailed = false) :
    e.image = e.committed := by
  unfold image
  split
  · rename_i hredb
    rcases h.shown hredb with ⟨-, hfile⟩ | hfailed
    · exact hfile
    · rw [hw] at hfailed
      cases hfailed
  · rfl

/-! ## A commit -/

/-- **A commit keeps the engine coherent**, and the image is as before or the new view. -/
theorem Engine.Coherent.commits [Executor Body Detail] {env : Environment}
    {walSource : Option String} {next : CommittedView Detail} {response : QueryResponse Detail}
    {out : Engine Detail × Result (QueryResponse Detail)} (h : e.Coherent)
    (hw : e.writeFailed = false) (hcertain : ¬ env.Uncertain e) (hnext : next.Loadable)
    (hcommits : Commits Body e env walSource next response out) :
    out.1.Coherent ∧ (out.1 = e ∨ out.1.image = next) := by
  cases hcommits with
  | refused error _ => exact ⟨h, .inl rfl⟩
  | shown e' reply haccepts hshows hdurable _ hreply =>
    by_cases hsome : e.durable.isSome
    · obtain ⟨hcommitted, hfile⟩ :=
        Commits.file_eq (.shown _ reply haccepts hshows hdurable hcertain hreply)
      rw [if_pos hsome] at hshows
      have hmode : e'.storageMode = .redb := hshows.mode.storageMode.trans (h.redb hsome)
      have hdurable' : e'.durable.isSome := by rw [hshows.mode.durable]; exact hsome
      refine ⟨⟨by rw [hcommitted]; exact hnext, fun _ => by rw [hfile hsome]; exact hnext,
        fun _ => hmode, fun _ => .inl ⟨hdurable', by rw [hfile hsome, hcommitted]⟩, fun hwal => ?_,
        fun _ => by rw [hshows.mode.snapshot]; exact h.unsaved (h.redb hsome)⟩, .inr ?_⟩
      · rw [hshows.mode.snapshotEvery]
        exact h.snapshots (hshows.mode.wal_eq_none hwal)
      · unfold image
        rw [if_pos hmode, hfile hsome]
    · rw [if_neg hsome] at hshows
      have hmode : e'.storageMode ≠ .redb := by
        rw [hshows.mode.storageMode]
        intro hredb
        rcases h.shown hredb with ⟨hsome', -⟩ | hfailed
        · exact hsome hsome'
        · rw [hw] at hfailed
          cases hfailed
      refine ⟨⟨by rw [hshows.committed]; exact hnext, fun h => absurd h hmode, fun hsome' => ?_,
        fun h => absurd h hmode, fun hwal => ?_, fun h => absurd h hmode⟩, .inr ?_⟩
      · rw [hshows.mode.durable] at hsome'
        exact absurd hsome' hsome
      · rw [hshows.mode.snapshotEvery]
        exact h.snapshots (hshows.mode.wal_eq_none hwal)
      · unfold image
        rw [if_neg hmode, hshows.committed]
  | unseen error _ hsome _ _ =>
    refine ⟨⟨h.committed, fun _ => hnext, fun hsome' => (by cases hsome'), fun _ => .inr rfl,
      h.snapshots, h.unsaved⟩, .inr ?_⟩
    unfold image
    rw [if_pos (h.redb hsome)]
  | unknown _ error _ huncertain _ _ => exact absurd huncertain hcertain

/-! ## What a script would commit can be loaded -/

section Scripts
variable [Executor Body Detail] {statements : List (Statement Body)} {e e' : Engine Detail}
  {db : Database} {response reply : QueryResponse Detail} {env : Environment}
  {candidate : DatabaseState} {pending : PendingIdempotency} {receipts : Option (ReceiptMap Detail)}
  {idempotency : Option PendingIdempotency} {key digest : String}
  {receipt : IdempotencyReceipt Detail}
  {run : Database → Body → Result (QueryResponse Detail × Database)} {deadline : ℕ → Result Unit}
  {state final : RunState Detail} {error : Error} {ops : List (Op Body)} {request : Request Body}

omit [ReceiptEncoding Detail] [Executor Body Detail] in
theorem runStatements_response (hrun : ∀ db body response next, run db body = .ok (response, next) →
      response.ok = true ∧ response.error = none) {summaries : Bool} {index : ℕ}
    (hstate : state.response.ok = true ∧ state.response.error = none)
    (h : runStatements run deadline summaries index state statements = .ok final) :
    final.response.ok = true ∧ final.response.error = none := by
  induction statements generalizing index state with
  | nil =>
    cases h
    exact hstate
  | cons statement rest ih =>
    simp only [runStatements, bind_eq_ok] at h
    obtain ⟨_, -, next, hnext, hrest⟩ := h
    cases statement with
    | expect op expected =>
      simp only [runStatement] at hnext
      split at hnext
      · cases hnext
      · split at hnext
        · cases hnext
          refine ih ?_ hrest
          exact hstate
        · cases hnext
    | run kind body =>
      simp only [runStatement, bind_eq_ok] at hnext
      obtain ⟨⟨response, db⟩, hresponse, hnext⟩ := hnext
      cases hnext
      exact ih (hrun _ _ _ _ hresponse) hrest

omit [ReceiptEncoding Detail] in
theorem Engine.run_response
    (hmutating : statements.any Statement.isMutating) {next : Database} {body : Body}
    (h : e.run statements db body = .ok (response, next)) :
    response.ok = true ∧ response.error = none := by
  simp only [run, hmutating, if_true] at h
  split at h
  · exact Executor.executeBounded_ok h
  · exact Executor.execute_ok h

omit [ReceiptEncoding Detail] [Executor Body Detail] in
/-- A single statement leaves no summaries. -/
theorem checkSummaries_eq_ok (hrun : runStatements run deadline (includeSummaries statements) 0
      ⟨db, .okMessage "ok", []⟩ statements = .ok final)
    (h : checkSummaries statements final.summaries = .ok ()) :
    validateSummaries final.summaries = .ok () := by
  unfold checkSummaries at h
  split at h
  · exact h
  · rename_i hsingle
    suffices final.summaries = [] by
      rw [this]
      rfl
    match statements with
    | [] =>
      cases hrun
      rfl
    | [.expect op expected] =>
      simp only [runStatements, runStatement, QueryResponse.okMessage, bind_eq_ok] at hrun
      obtain ⟨_, -, _, h, -⟩ := hrun
      cases h
    | [.run kind body] =>
      simp only [runStatements, runStatement, bind_eq_ok] at hrun
      obtain ⟨_, -, next, ⟨⟨response, db'⟩, -, hnext⟩, hrest⟩ := hrun
      cases hnext
      cases hrest
      rfl
    | _ :: _ :: _ => simp [includeSummaries] at hsingle

omit [ReceiptEncoding Detail] in
theorem Engine.runScript_response (hmutating : statements.any Statement.isMutating)
    (h : e.runScript env statements = .ok state) :
    (state.response.ok = true ∧ state.response.error = none) ∧
      validateSummaries state.response.statements = .ok () := by
  simp only [runScript, bind_eq_ok] at h
  obtain ⟨candidate, -, final, hfinal, _, hsummaries, _, -, h⟩ := h
  cases h
  have hresponse : final.response.ok = true ∧ final.response.error = none := by
    refine runStatements_response ?_ ?_ hfinal
    · exact fun _ _ _ _ hrun => run_response hmutating hrun
    · exact ⟨rfl, rfl⟩
  exact ⟨hresponse, checkSummaries_eq_ok hfinal hsummaries⟩

/-- The receipt of a request, and that its response is the reply. -/
theorem Engine.prepareReceipt_eq_ok
    (h : e.prepareReceipt Body env candidate response (some pending) = .ok (reply, receipts)) :
    ∃ completed admitted,
      prepareNewReceipt e.committed.receipts ⟨pending.digest, candidate.sequence, completed,
        { response with schema := some (schemaInfo Body Detail candidate) }⟩ = .ok admitted ∧
      admitted = ⟨pending.digest, candidate.sequence, completed, reply⟩ ∧
      reply.schema = some (schemaInfo Body Detail candidate) ∧
      receipts = some (assocInsert pending.key admitted e.committed.receipts) := by
  simp only [prepareReceipt, bind_eq_ok] at h
  obtain ⟨completed, -, admitted, hadmitted, h⟩ := h
  cases h
  obtain ⟨⟨warnings, hsame⟩, -⟩ := prepareNewReceipt_eq_ok hadmitted
  refine ⟨completed, admitted, hadmitted, ?_, rfl, rfl⟩
  rw [hsame]

theorem Engine.writeFailed_of_prepareScript (hmutating : statements.any Statement.isMutating)
    {prepared : DatabaseState × QueryResponse Detail × Option (ReceiptMap Detail)}
    (h : e.prepareScript env statements idempotency = .ok prepared) : e.writeFailed = false := by
  by_contra hfailed
  obtain ⟨error, herror⟩ :=
    e.prepareScript_of_writeFailed (by simpa using hfailed) env hmutating idempotency
  rw [h] at herror
  cases herror

/-- The condition on a request under a key: the key is new, key and digest are well formed. -/
structure Engine.NewKey (e : Engine Detail) (pending : PendingIdempotency) : Prop where
  new : e.committed.receipts.lookup pending.key = none
  key : validateKey pending.key = .ok ()
  digest : validateDigest pending.digest = .ok ()

/-- **What a script would commit can be loaded.** -/
theorem Engine.Coherent.prepareScript (h : e.Coherent)
    (hmutating : statements.any Statement.isMutating)
    (hkey : ∀ p, idempotency = some p → e.NewKey p)
    (hprepare : e.prepareScript env statements idempotency = .ok (candidate, response, receipts)) :
    CommittedView.Loadable ⟨candidate, receipts.getD e.committed.receipts⟩ := by
  obtain ⟨-, hsequence, -, hnone⟩ := prepareScript_eq_ok hprepare
  have hle : e.committed.db.sequence ≤ candidate.sequence := by omega
  simp only [Engine.prepareScript, bind_eq_ok] at hprepare
  obtain ⟨_, -, state, hstate, next, hnext, ⟨reply, receipts'⟩, hreceipt, hprepare⟩ := hprepare
  cases hprepare
  cases idempotency with
  | none =>
    rw [hnone rfl]
    exact h.committed.sublist (.refl _) hle
  | some pending =>
    obtain ⟨completed, admitted, hadmitted, -, -, hreceipts⟩ := prepareReceipt_eq_ok hreceipt
    obtain ⟨hresponse, hsummaries⟩ := runScript_response hmutating hstate
    obtain ⟨hnew, hvalidKey, hvalidDigest⟩ := hkey pending rfl
    rw [hreceipts]
    exact h.committed.insert hnew hvalidKey hvalidDigest hsummaries hresponse hle hadmitted

/-- A script leaves the engine as it is, or what it prepared becomes the image. -/
theorem Engine.Coherent.tryExecuteStatements (h : e.Coherent) (hcertain : ¬ env.Uncertain e)
    (statements : List (Statement Body))
    (walSource : Option String) (hkey : ∀ p, idempotency = some p → e.NewKey p) :
    (e.tryExecuteStatements env statements walSource idempotency).1.Coherent ∧
    ((e.tryExecuteStatements env statements walSource idempotency).1 = e ∨
      ∃ candidate response receipts, e.writeFailed = false ∧
        e.prepareScript env statements idempotency = .ok (candidate, response, receipts) ∧
        (e.tryExecuteStatements env statements walSource idempotency).1.image =
          ⟨candidate, receipts.getD e.committed.receipts⟩) := by
  by_cases hmutating : statements.any Statement.isMutating
  · rcases e.tryExecuteStatements_cases env hmutating walSource idempotency with
      ⟨error, -, hout⟩ | ⟨candidate, response, receipts, e', reply, hprepare, hcommits, hout⟩
    · rw [hout]
      exact ⟨h, .inl rfl⟩
    · rw [hout]
      have hwrite := writeFailed_of_prepareScript hmutating hprepare
      obtain ⟨hcoherent, hsame | himage⟩ := h.commits hwrite hcertain
        (h.prepareScript hmutating hkey hprepare) hcommits
      · exact ⟨hcoherent, .inl hsame⟩
      · exact ⟨hcoherent, .inr ⟨candidate, response, receipts, hwrite, hprepare, himage⟩⟩
  · rw [e.tryExecuteStatements_of_read env hmutating walSource idempotency]
    exact ⟨h, .inl rfl⟩

/-- The receipts of a prepared script. -/
theorem Engine.receipts_prepareScript
    (h : e.prepareScript env statements (some pending) = .ok (candidate, response, receipts)) :
    ∃ completed, receipts = some (assocInsert pending.key
      ⟨pending.digest, candidate.sequence, completed, response⟩ e.committed.receipts) := by
  simp only [prepareScript, bind_eq_ok] at h
  obtain ⟨_, -, state, hstate, next, hnext, ⟨reply, receipts'⟩, hreceipt, h⟩ := h
  cases h
  obtain ⟨completed, admitted, -, hsame, -, hreceipts⟩ := prepareReceipt_eq_ok hreceipt
  exact ⟨completed, hsame ▸ hreceipts⟩

/-- What a prepared script adds under its key. -/
theorem Engine.lookup_prepareScript
    (h : e.prepareScript env statements (some pending) = .ok (candidate, response, receipts)) :
    ∃ completed, ∀ key, (receipts.getD e.committed.receipts).lookup key =
      if key = pending.key then some ⟨pending.digest, candidate.sequence, completed, response⟩
      else e.committed.receipts.lookup key := by
  obtain ⟨completed, rfl⟩ := receipts_prepareScript h
  exact ⟨completed, fun key => lookup_assocInsert _ _ _ _⟩

/-- **The reply to a first request is what its receipt stores.** -/
theorem Engine.Coherent.reply_stored (h : e.Coherent) (hwal : e.wal = none)
    (hmutating : statements.any Statement.isMutating) (walSource : Option String)
    (hout : e.tryExecuteStatements env statements walSource (some pending) = (e', .ok reply)) :
    e.Effect statements e'.committed.db.db ∧
    e'.committed.db.sequence = e.committed.db.sequence + 1 ∧
    ∃ completed, e'.committed.receipts.lookup pending.key =
      some ⟨pending.digest, e.committed.db.sequence + 1, completed, reply⟩ := by
  rcases e.tryExecuteStatements_cases env hmutating walSource (some pending) with
    ⟨error, -, hout'⟩ | ⟨candidate, response, receipts, e'', result, hprepare, hcommits, hout'⟩
  · rw [hout'] at hout
    cases hout
  · rw [hout'] at hout
    cases result with
    | error error => cases hout
    | ok reply' =>
      cases hout
      obtain ⟨heffect, hsequence, -⟩ := prepareScript_eq_ok hprepare
      obtain ⟨hcommitted, -⟩ := hcommits.file_eq
      obtain ⟨completed, hlookup⟩ := lookup_prepareScript hprepare
      have hschema : response.schema = some (schemaInfo Body Detail candidate) := by
        simp only [Engine.prepareScript, bind_eq_ok] at hprepare
        obtain ⟨_, -, state, -, next, -, ⟨reply, receipts'⟩, hreceipt, hprepare⟩ := hprepare
        cases hprepare
        obtain ⟨_, _, -, -, hschema, -⟩ := prepareReceipt_eq_ok hreceipt
        exact hschema
      have hreply : reply' = response := by
        cases hcommits with
        | shown _ _ _ _ _ _ hreply => exact hreply (h.snapshots hwal)
      have hsame : e'.withSchema Body reply' = response := by
        unfold withSchema
        rw [hreply, hcommitted, ← hschema]
      rw [hsame, hcommitted]
      refine ⟨heffect, hsequence, completed, ?_⟩
      rw [hlookup, if_pos rfl, hsequence]

/-- **A request that fails leaves everything as it was**, except where its commit took
place and only the new view could not be read. -/
theorem Engine.tryExecuteStatements_failure
    (hcertain : ¬ env.Uncertain e) (statements : List (Statement Body)) (walSource : Option String)
    (idempotency : Option PendingIdempotency)
    (hout : e.tryExecuteStatements env statements walSource idempotency = (e', .error error)) :
    e' = e ∨ (error.code = .E_STORAGE_REOPEN_REQUIRED ∧ e.durable.isSome ∧
      ∃ candidate response receipts,
        e.prepareScript env statements idempotency = .ok (candidate, response, receipts) ∧
        e'.file = ⟨candidate, receipts.getD e.committed.receipts⟩) := by
  by_cases hmutating : statements.any Statement.isMutating
  · rcases e.tryExecuteStatements_cases env hmutating walSource idempotency with
      ⟨error, -, hout'⟩ | ⟨candidate, response, receipts, e'', result, hprepare, hcommits, hout'⟩
    · rw [hout'] at hout
      cases hout
      exact .inl rfl
    · rw [hout'] at hout
      cases result with
      | ok reply => cases hout
      | error error =>
        cases hout
        cases hcommits with
        | refused _ _ => exact .inl rfl
        | unseen _ _ hdurable _ hcode =>
          exact .inr ⟨hcode, hdurable, candidate, response, receipts, hprepare, rfl⟩
        | unknown _ _ _ huncertain _ _ => exact absurd huncertain hcertain
  · have hsame := e.tryExecuteStatements_of_read env hmutating walSource idempotency
    rw [hout] at hsame
    exact .inl hsame

/-! ## Requests under a key -/

/-- A request under a key is refused, answered from a receipt, or executed. -/
theorem Engine.executeIdempotent_cases (e : Engine Detail) (env : Environment)
    (key digest : String) (request : Request Body) :
    (∃ error, e.executeIdempotent env key digest request = (e, .error error)) ∨
    (∃ receipt, e.committed.receipts.lookup key = some receipt ∧ receipt.digest = digest ∧
      e.executeIdempotent env key digest request =
        (e, .ok ⟨receipt.response, true, receipt.digest, receipt.committedSequence⟩)) ∨
    ∃ statements, e.NewKey ⟨key, digest⟩ ∧ e.wal = none ∧ request.statements = .ok statements ∧
      statements.any Statement.isMutating ∧
      e.executeIdempotent env key digest request =
        acknowledge key
          (e.tryExecuteStatements env statements (some request.source) (some ⟨key, digest⟩)) := by
  unfold executeIdempotent
  split
  · exact .inl ⟨_, rfl⟩
  · exact .inl ⟨_, rfl⟩
  · rename_i hkey hdigest
    split
    · rename_i receipt hreceipt
      split
      · exact .inl ⟨_, rfl⟩
      · rename_i hsame
        exact .inr (.inl ⟨receipt, hreceipt, not_not.mp hsame, rfl⟩)
    · rename_i hnew
      split
      · exact .inl ⟨_, rfl⟩
      · rename_i hwal
        unfold tryExecuteWithParamsAndIdempotency
        by_cases hschema : request.expectedSchema.any fun expected =>
            expected ≠ schemaInfo Body Detail e.committed.db
        · simp only [hschema, if_true]
          exact .inl ⟨_, rfl⟩
        · simp only [hschema]
          cases hstatements : request.statements with
          | error error => exact .inl ⟨error, rfl⟩
          | ok statements =>
            by_cases hmutating : statements.any Statement.isMutating
            · right
              right
              exact ⟨statements, ⟨hnew, hkey, hdigest⟩, by simpa using hwal, rfl, hmutating,
                by simp [hmutating]⟩
            · simp only [hmutating]
              exact .inl ⟨_, rfl⟩

/-- While there is a receipt in the image, requests under its key change nothing. -/
theorem Engine.Coherent.executeIdempotent_of_receipt (h : e.Coherent)
    (hreceipt : e.image.receipts.lookup key = some receipt) (env : Environment) (digest : String)
    (request : Request Body) : (e.executeIdempotent env key digest request).1 = e := by
  cases hw : e.writeFailed with
  | true => exact executeIdempotent_of_writeFailed hw env key digest request
  | false =>
    rw [h.image_eq hw] at hreceipt
    rcases e.executeIdempotent_cases env key digest request with
      ⟨error, hout⟩ | ⟨_, -, -, hout⟩ | ⟨statements, hnew, -⟩
    · rw [hout]
    · rw [hout]
    · rw [hnew.new] at hreceipt
      cases hreceipt

/-- A request under a key leaves the engine as it is, or its receipt is in the image. -/
theorem Engine.Coherent.executeIdempotent (h : e.Coherent) (hcertain : ¬ env.Uncertain e)
    (key digest : String)
    (request : Request Body) : (e.executeIdempotent env key digest request).1.Coherent ∧
    ((e.executeIdempotent env key digest request).1 = e ∨
      e.image.receipts.lookup key = none ∧
      ∃ receipt, ∀ k, (e.executeIdempotent env key digest request).1.image.receipts.lookup k =
        if k = key then some receipt else e.image.receipts.lookup k) := by
  rcases e.executeIdempotent_cases env key digest request with
    ⟨error, hout⟩ | ⟨_, -, -, hout⟩ | ⟨statements, hnew, hwal, -, hmutating, hout⟩
  · rw [hout]
    exact ⟨h, .inl rfl⟩
  · rw [hout]
    exact ⟨h, .inl rfl⟩
  · have hkey : ∀ p, some ⟨key, digest⟩ = some p → e.NewKey p := by
      rintro p ⟨rfl⟩
      exact hnew
    have hfst : (e.executeIdempotent env key digest request).1 =
        (e.tryExecuteStatements env statements (some request.source) (some ⟨key, digest⟩)).1 := by
      rw [hout]
      rfl
    rw [hfst]
    obtain ⟨hcoherent, hsame | ⟨candidate, response, receipts, hwrite, hprepare, himage⟩⟩ :=
      h.tryExecuteStatements hcertain statements (some request.source) hkey
    · exact ⟨hcoherent, .inl hsame⟩
    · obtain ⟨completed, hlookup⟩ := lookup_prepareScript hprepare
      rw [himage, h.image_eq hwrite]
      exact ⟨hcoherent, .inr ⟨hnew.new, _, hlookup⟩⟩

/-! ## Runs of requests -/

/-- The commits of the request succeed or definitely fail. -/
def Environment.Certain (env : Environment) : Prop :=
  (∀ applied error, env.commit ≠ .uncertain applied error) ∧ ∀ onDisk, env.wal ≠ .failed onDisk

omit [ReceiptEncoding Detail] [Executor Body Detail] in
theorem Environment.Certain.not_uncertain (h : env.Certain)
    (e : Engine Detail) : ¬ env.Uncertain e := by
  rintro (⟨-, applied, error, hcommit⟩ | ⟨-, -, onDisk, hwal⟩)
  · exact h.1 applied error hcommit
  · exact h.2 onDisk hwal

def Op.Certain : Op Body → Prop
  | .execute env _ => env.Certain
  | .executeIdempotent env _ _ _ => env.Certain
  | .prune env _ => env.Certain
  | .migrate env _ => env.Certain
  | .checkpoint _ => True
  | .reopen _ => True

/-- The request forgets the receipt under `key`. -/
def Op.Prunes (e : Engine Detail) (key : String) : Op Body → Prop
  | .prune _ options =>
    ∃ keys, idempotencyPruneSelection e.committed.receipts options = .ok keys ∧ key ∈ keys
  | _ => False

theorem Engine.Coherent.execute (h : e.Coherent)
    (hcertain : ¬ env.Uncertain e) (request : Request Body) :
    (e.tryExecuteWithParamsAndIdempotency env request none).1.Coherent ∧
      (e.tryExecuteWithParamsAndIdempotency env request none).1.image.receipts =
        e.image.receipts := by
  unfold tryExecuteWithParamsAndIdempotency
  split
  · exact ⟨h, rfl⟩
  · split
    · exact ⟨h, rfl⟩
    · rename_i statements hstatements
      rw [if_neg (by simp)]
      obtain ⟨hcoherent, hsame | ⟨candidate, response, receipts, hwrite, hprepare, himage⟩⟩ :=
        h.tryExecuteStatements hcertain statements (some request.source)
          (fun p (hnone : none = some p) => by cases hnone)
      · exact ⟨hcoherent, by rw [hsame]⟩
      · obtain ⟨-, -, -, hnone⟩ := prepareScript_eq_ok hprepare
        refine ⟨hcoherent, ?_⟩
        rw [himage, hnone rfl, h.image_eq hwrite]
        rfl

/-- A commit that keeps the database, or migrates it, and keeps some of the receipts. -/
theorem Engine.Coherent.commitCandidate (Body : Type) [Executor Body Detail]
    (h : e.Coherent) (hwrite : e.writeFailed = false)
    (hcertain : ¬ env.Uncertain e) {schemaChanging : Bool}
    (hnext : e.nextState schemaChanging db = .ok candidate)
    (walSource : Option String) (response : QueryResponse Detail)
    (receipts : Option (ReceiptMap Detail))
    (hreceipts : (receipts.getD e.committed.receipts).Sublist e.committed.receipts) :
    (e.commitCandidate Body env candidate walSource response receipts).1.Coherent ∧
      ((e.commitCandidate Body env candidate walSource response receipts).1 = e ∨
        (e.commitCandidate Body env candidate walSource response receipts).1.image.receipts =
          receipts.getD e.committed.receipts) := by
  have hcandidate := nextState_eq_ok hnext
  have hload : CommittedView.Loadable ⟨candidate, receipts.getD e.committed.receipts⟩ :=
    h.committed.sublist hreceipts (by rw [hcandidate]; exact Nat.le_succ _)
  obtain ⟨hcoherent, hsame | himage⟩ := h.commits hwrite hcertain hload
    (e.commitCandidate_commits Body env candidate walSource response receipts)
  · exact ⟨hcoherent, .inl hsame⟩
  · exact ⟨hcoherent, .inr (by rw [himage])⟩

omit [ReceiptEncoding Detail] [Executor Body Detail] in
theorem ReceiptMap.lookup_without (receipts : ReceiptMap Detail) (keys : List String)
    (key : String) :
    (receipts.without keys).lookup key = if key ∈ keys then none else receipts.lookup key := by
  induction receipts with
  | nil => simp [ReceiptMap.without]
  | cons p receipts ih =>
    unfold ReceiptMap.without at ih ⊢
    rw [List.filter_cons, lookup_cons_eq]
    by_cases hp : p.1 ∈ keys
    · rw [if_neg (by simpa using hp), ih]
      by_cases hkey : key ∈ keys
      · simp [hkey]
      · have hne : key ≠ p.1 := fun h => hkey (h ▸ hp)
        simp [hkey, hne]
    · rw [if_pos (by simpa using hp), lookup_cons_eq, ih]
      by_cases hkey : key ∈ keys
      · have hne : key ≠ p.1 := fun h => hp (h ▸ hkey)
        simp [hkey, hne]
      · simp [hkey]

theorem Engine.Coherent.prune (Body : Type) [Executor Body Detail]
    (h : e.Coherent) (hcertain : ¬ env.Uncertain e) (options : IdempotencyPruneOptions) :
    (e.pruneIdempotencyReceipts Body env options).1.Coherent ∧
    ((e.pruneIdempotencyReceipts Body env options).1 = e ∨
      ∃ keys, idempotencyPruneSelection e.committed.receipts options = .ok keys ∧
        (e.pruneIdempotencyReceipts Body env options).1.image.receipts =
          e.image.receipts.without keys) := by
  cases hw : e.writeFailed with
  | true =>
    obtain ⟨error, hout⟩ := pruneIdempotencyReceipts_of_writeFailed Body hw env options
    rw [hout]
    exact ⟨h, .inl rfl⟩
  | false =>
    unfold pruneIdempotencyReceipts
    dsimp only
    split
    · exact ⟨h, .inl rfl⟩
    · exact ⟨h, .inl rfl⟩
    · rename_i keys _ hselection
      have hkeys : idempotencyPruneSelection e.committed.receipts options = .ok keys := by
        obtain ⟨-, hselection⟩ := of_refused hselection
        obtain ⟨-, hselection⟩ := of_refused hselection
        rw [hw] at hselection
        obtain ⟨_, -, hselection⟩ := of_bind hselection
        exact hselection
      split
      · exact ⟨h, .inl rfl⟩
      · rename_i candidate hcandidate
        obtain ⟨_, -, hnext⟩ := of_bind hcandidate
        obtain ⟨hcoherent, hreceipts⟩ := h.commitCandidate Body hw hcertain hnext none
          (.okMessage "idempotency receipts pruned")
          (some (e.committed.receipts.without keys)) List.filter_sublist
        refine ⟨hcoherent, hreceipts.imp_right fun hreceipts => ⟨keys, hkeys, ?_⟩⟩
        rw [h.image_eq hw]
        exact hreceipts

theorem Engine.Coherent.migrate (Body : Type) [Executor Body Detail]
    (h : e.Coherent) (hcertain : ¬ env.Uncertain e) (migrate : Database → Result Database) :
    (e.applyMigration Body env migrate).1.Coherent ∧
      (e.applyMigration Body env migrate).1.image.receipts = e.image.receipts := by
  cases hw : e.writeFailed with
  | true =>
    obtain ⟨error, hout⟩ := applyMigration_of_writeFailed Body hw env migrate
    rw [hout]
    exact ⟨h, rfl⟩
  | false =>
    unfold applyMigration
    dsimp only
    split
    · exact ⟨h, rfl⟩
    · rename_i candidate hcandidate
      obtain ⟨db, hnext⟩ : ∃ db, e.nextState true db = .ok candidate := by
        obtain ⟨-, hcandidate⟩ := of_refused hcandidate
        obtain ⟨-, hcandidate⟩ := of_refused hcandidate
        rw [hw] at hcandidate
        obtain ⟨_, -, db, -, hnext⟩ := of_bind₂ hcandidate
        exact ⟨db, hnext⟩
      obtain ⟨hcoherent, hsame | hreceipts⟩ := h.commitCandidate Body hw hcertain hnext none
        (.okMessage "ok") none (.refl _)
      · exact ⟨hcoherent, congrArg (fun e' => (image e').receipts) hsame⟩
      · refine ⟨hcoherent, ?_⟩
        rw [h.image_eq hw]
        exact hreceipts

omit [Executor Body Detail] in
theorem Engine.Coherent.checkpoint (h : e.Coherent) (env : Environment) :
    (e.checkpoint env).1.Coherent ∧ (e.checkpoint env).1.image = e.image := by
  obtain ⟨hmode, hcommitted, hfile⟩ := e.checkpoint_saves env
  have hsame : e.storageMode = .redb → (e.checkpoint env).1.file = e.file := by
    intro hredb
    rcases hfile with hfile | ⟨hsnapshot, -⟩
    · exact hfile
    · rw [h.unsaved hredb] at hsnapshot
      cases hsnapshot
  refine ⟨⟨by rw [hcommitted]; exact h.committed, fun hredb => ?_, fun hdurable => ?_,
    fun hredb => ?_, fun hwal => ?_, fun hredb => ?_⟩, ?_⟩
  · rw [hmode.storageMode] at hredb
    rw [hsame hredb]
    exact h.file hredb
  · rw [hmode.durable] at hdurable
    rw [hmode.storageMode]
    exact h.redb hdurable
  · rw [hmode.storageMode] at hredb
    rw [hsame hredb, hcommitted, hmode.durable, hmode.writeFailed]
    exact h.shown hredb
  · rw [hmode.snapshotEvery]
    exact h.snapshots (hmode.wal_eq_none hwal)
  · rw [hmode.storageMode] at hredb
    rw [hmode.snapshot]
    exact h.unsaved hredb
  · unfold image
    rw [hmode.storageMode, hcommitted]
    split
    · rename_i hredb
      exact hsame hredb
    · rfl

omit [Executor Body Detail] in
theorem openRedb_coherent {file : CommittedView Detail} {capabilities : Capabilities}
    {opened : Engine Detail} (h : openRedb file capabilities = .ok opened) :
    opened.Coherent ∧ opened.image = file ∧ opened.committed = file ∧
      ∀ p ∈ file.receipts, p.2.Readable := by
  obtain ⟨loaded, hloaded, size, hvalid, h⟩ := of_bind₂ h
  cases h
  obtain ⟨rfl, hreadable⟩ := loadReceipts_eq_ok hloaded
  have hload : file.Loadable := validateReceipts_eq_ok_iff.mp
    (by rw [hvalid, validateReceipts_eq_size hvalid])
  exact ⟨⟨hload, fun _ => hload, fun _ => rfl, fun _ => .inl ⟨rfl, rfl⟩, fun _ => rfl,
    fun _ => rfl⟩, rfl, rfl, hreadable⟩

/-- **Every request keeps the engine coherent, and a receipt stays until it is pruned.** -/
theorem Engine.Coherent.after (h : e.Coherent) {op : Op Body} (hop : op.Certain) :
    (e.after op).Coherent ∧ ∀ key receipt, e.image.receipts.lookup key = some receipt →
      ¬ op.Prunes e key → (e.after op).image.receipts.lookup key = some receipt := by
  cases op with
  | execute env request =>
    obtain ⟨hcoherent, hreceipts⟩ := h.execute (hop.not_uncertain e) request
    exact ⟨hcoherent, fun key receipt hlookup _ => by rw [Engine.after, hreceipts, hlookup]⟩
  | executeIdempotent env key digest request =>
    obtain ⟨hcoherent, hsame | ⟨hnone, stored, hstored⟩⟩ :=
      h.executeIdempotent (hop.not_uncertain e) key digest request
    · exact ⟨hcoherent, fun key receipt hlookup _ => by rw [Engine.after, hsame, hlookup]⟩
    · refine ⟨hcoherent, fun key' receipt hlookup _ => ?_⟩
      have hne : key' ≠ key := by
        rintro rfl
        rw [hnone] at hlookup
        cases hlookup
      rw [Engine.after, hstored, if_neg hne, hlookup]
  | prune env options =>
    obtain ⟨hcoherent, hsame | ⟨keys, hkeys, hreceipts⟩⟩ :=
      h.prune Body (hop.not_uncertain e) options
    · exact ⟨hcoherent, fun key receipt hlookup _ => by rw [Engine.after, hsame, hlookup]⟩
    · refine ⟨hcoherent, fun key receipt hlookup hkept => ?_⟩
      have hkey : key ∉ keys := fun hkey => hkept ⟨keys, hkeys, hkey⟩
      rw [Engine.after, hreceipts, ReceiptMap.lookup_without, if_neg hkey, hlookup]
  | migrate env migrate =>
    obtain ⟨hcoherent, hreceipts⟩ := h.migrate Body (hop.not_uncertain e) migrate
    exact ⟨hcoherent, fun key receipt hlookup _ => by rw [Engine.after, hreceipts, hlookup]⟩
  | checkpoint env =>
    obtain ⟨hcoherent, himage⟩ := h.checkpoint env
    exact ⟨hcoherent, fun key receipt hlookup _ => by rw [Engine.after, himage, hlookup]⟩
  | reopen capabilities =>
    unfold Engine.after
    dsimp only
    split
    · rename_i hredb
      have himage : e.image = e.file := if_pos hredb
      split
      · rename_i opened hopened
        obtain ⟨hcoherent, hfile, -⟩ := openRedb_coherent hopened
        exact ⟨hcoherent, fun key receipt hlookup _ => by rw [hfile, ← himage, hlookup]⟩
      · exact ⟨h, fun key receipt hlookup _ => hlookup⟩
    · exact ⟨h, fun key receipt hlookup _ => hlookup⟩

inductive Opened : Engine Detail → Prop where
  | redb {file : CommittedView Detail} {capabilities : Capabilities} {opened : Engine Detail}
      (readOnly : Bool) : openRedb file capabilities = .ok opened → Opened { opened with readOnly }
  | engine {saved db : DatabaseState} {wal : Option (List (ℕ × String))} {snapshot : Bool}
      {snapshotEvery : ℕ} {opened : Engine Detail} (readOnly : Bool) :
      openEngine saved db wal snapshot snapshotEvery = .ok opened →
      Opened { opened with readOnly }

/-- An engine that requests with certain commits have reached. -/
inductive Reachable (Body : Type) [Executor Body Detail] : Engine Detail → Prop where
  | opened {e : Engine Detail} : Opened e → Reachable Body e
  | after {e : Engine Detail} {op : Op Body} : Reachable Body e → op.Certain →
      Reachable Body (e.after op)

omit [Executor Body Detail] in
theorem Opened.coherent (h : Opened e) : e.Coherent := by
  cases h with
  | redb readOnly hopened =>
    obtain ⟨⟨h₁, h₂, h₃, h₄, h₅, h₆⟩, -⟩ := openRedb_coherent hopened
    exact ⟨h₁, h₂, h₃, h₄, h₅, h₆⟩
  | engine readOnly hopened =>
    unfold openEngine at hopened
    obtain ⟨hsnapshot, hopened⟩ := of_refused hopened
    obtain ⟨hevery, hopened⟩ := of_refused hopened
    cases hopened
    have hmode : ∀ {wal : Option (List (ℕ × String))} {snapshot : Bool},
        (if wal.isNone then StorageMode.memory
          else if snapshot then .legacyWalSnapshot else .legacyWal) ≠ .redb := by
      intro wal snapshot
      split
      · simp
      · split <;> simp
    refine ⟨receiptsValid_nil _, fun h => absurd h hmode, fun h => (by cases h),
      fun h => absurd h hmode, fun hwal => ?_, fun h => absurd h hmode⟩
    dsimp only at hwal ⊢
    by_contra hpos
    have hsome := not_and.mp hevery (Nat.pos_of_ne_zero hpos)
    simp_all

theorem Reachable.coherent (h : Reachable Body e) : e.Coherent := by
  induction h with
  | opened h => exact h.coherent
  | after _ hop ih => exact (ih.after hop).1

def Op.key? : Op Body → Option String
  | .executeIdempotent _ key _ _ => some key
  | _ => none

/-- How often a run of requests applies a script under `key`: a commit takes place in a
request under this key. -/
def applications (key : String) : Engine Detail → List (Op Body) → ℕ
  | _, [] => 0
  | e, op :: ops =>
    (if op.key? = some key ∧ (e.after op).image.db.sequence ≠ e.image.db.sequence then 1 else 0) +
      applications key (e.after op) ops

/-- No request of the run forgets the receipt under `key`. -/
def Retains (key : String) : Engine Detail → List (Op Body) → Prop
  | _, [] => True
  | e, op :: ops => ¬ op.Prunes e key ∧ Retains key (e.after op) ops

theorem applications_eq_zero (h : e.Coherent)
    (hreceipt : e.image.receipts.lookup key = some receipt) (hops : ∀ op ∈ ops, op.Certain)
    (hretains : Retains key e ops) : applications key e ops = 0 := by
  induction ops generalizing e with
  | nil => rfl
  | cons op ops ih =>
    obtain ⟨hcoherent, hkeep⟩ := h.after (hops op (by simp))
    have hrest := ih hcoherent (hkeep key receipt hreceipt hretains.1)
      (fun op' hop' => hops op' (by simp [hop'])) hretains.2
    have hsame : ¬ (op.key? = some key ∧
        (e.after op).image.db.sequence ≠ e.image.db.sequence) := by
      rintro ⟨hkey, hne⟩
      cases op with
      | executeIdempotent env key' digest request =>
        cases hkey
        exact hne (by rw [after, h.executeIdempotent_of_receipt hreceipt])
      | _ => cases hkey
    rw [applications, if_neg hsame, hrest]

/-- **At most once**: while its receipt is retained, a script under a key is applied at
most once. -/
theorem applications_le_one
    (h : e.Coherent) (hops : ∀ op ∈ ops, op.Certain) (hretains : Retains key e ops) :
    applications key e ops ≤ 1 := by
  induction ops generalizing e with
  | nil => exact Nat.zero_le 1
  | cons op ops ih =>
    obtain ⟨hcoherent, -⟩ := h.after (hops op (by simp))
    have hrest := fun op' hop' => hops op' (List.mem_cons_of_mem op hop')
    rw [applications]
    split
    · rename_i happlied
      obtain ⟨hkey, hne⟩ := happlied
      -- the commit that applied the script left its receipt
      obtain ⟨receipt, hreceipt⟩ :
          ∃ receipt, (e.after op).image.receipts.lookup key = some receipt := by
        cases op with
        | executeIdempotent env key' digest request =>
          cases hkey
          have hcertain : env.Certain :=
            hops (.executeIdempotent env key digest request) List.mem_cons_self
          obtain ⟨-, hsame | ⟨-, receipt, hstored⟩⟩ :=
            h.executeIdempotent (hcertain.not_uncertain e) key digest request
          · exact absurd (by rw [after, hsame]) hne
          · exact ⟨receipt, by rw [after, hstored, if_pos rfl]⟩
        | _ => cases hkey
      rw [applications_eq_zero hcoherent hreceipt hrest hretains.2]
    · rw [Nat.zero_add]
      exact ih hcoherent hrest hretains.2

/-! ## Exactly once -/

/-- A request is answered from a receipt with its digest. -/
theorem Engine.Coherent.replay (h : e.Coherent)
    (hreceipt : e.committed.receipts.lookup key = some receipt)
    (env : Environment) (request : Request Body) :
    e.executeIdempotent env key receipt.digest request =
      (e, .ok ⟨receipt.response, true, receipt.digest, receipt.committedSequence⟩) := by
  have hvalid := h.committed.each _ (mem_of_lookup hreceipt)
  unfold Engine.executeIdempotent
  rw [hvalid.key, hvalid.digest, hreceipt]
  exact if_neg (not_not.mpr rfl)

/-- A request with another digest is refused. -/
theorem Engine.Coherent.conflict (h : e.Coherent)
    (hreceipt : e.committed.receipts.lookup key = some receipt)
    (hdigest : receipt.digest ≠ digest) (env : Environment) (request : Request Body) :
    ∃ error, e.executeIdempotent env key digest request = (e, .error error) ∧
      (validateDigest digest = .ok () → error.code = .E_IDEMPOTENCY_CONFLICT) := by
  have hvalid := h.committed.each _ (mem_of_lookup hreceipt)
  unfold Engine.executeIdempotent
  rw [hvalid.key]
  cases hd : validateDigest digest with
  | error error => exact ⟨error, rfl, fun h => (by cases h)⟩
  | ok _ =>
    dsimp only
    rw [hreceipt]
    dsimp only
    rw [if_pos hdigest]
    exact ⟨_, rfl, fun _ => rfl⟩

omit [ReceiptEncoding Detail] [Executor Body Detail] in
theorem acknowledge_of_lookup (h : e.committed.receipts.lookup key = some receipt) :
    acknowledge key (e, .ok reply) =
      (e, .ok ⟨reply, false, receipt.digest, receipt.committedSequence⟩) := by
  unfold acknowledge
  dsimp only
  rw [h]
  rfl

/-- The first execution under a key leaves a receipt with its reply. -/
theorem Engine.Coherent.first_execution (h : e.Coherent) {execution : IdempotentExecution Detail}
    (hout : e.executeIdempotent env key digest request = (e', .ok execution))
    (hfirst : execution.replayed = false) :
    ∃ statements completed, request.statements = .ok statements ∧
      e.Effect statements e'.committed.db.db ∧
      e'.committed.db.sequence = e.committed.db.sequence + 1 ∧
      e'.committed.receipts.lookup key =
        some ⟨digest, e.committed.db.sequence + 1, completed, execution.response⟩ := by
  rcases e.executeIdempotent_cases env key digest request with
    ⟨error, hout'⟩ | ⟨_, -, -, hout'⟩ | ⟨statements, -, hwal, hstatements, hmutating, hout'⟩
  · rw [hout'] at hout
    cases hout
  · rw [hout'] at hout
    cases hout
    cases hfirst
  · rw [hout'] at hout
    cases htry : e.tryExecuteStatements env statements (some request.source)
      (some ⟨key, digest⟩) with
    | mk e'' result =>
      rw [htry] at hout
      cases result with
      | error error => cases hout
      | ok reply =>
        obtain ⟨heffect, hsequence, completed, hlookup⟩ :=
          h.reply_stored hwal hmutating (some request.source) htry
        rw [acknowledge_of_lookup hlookup] at hout
        cases hout
        exact ⟨statements, completed, hstatements, heffect, hsequence, hlookup⟩

/-- The request has taken place in `file`: its effect and its receipt are there, and as soon as
the file is opened the same request is answered from the receipt. -/
def Engine.TakenPlace (e : Engine Detail) (key digest : String) (request : Request Body)
    (file : CommittedView Detail) : Prop :=
  ∃ statements receipt, request.statements = .ok statements ∧ e.Effect statements file.db.db ∧
    file.db.sequence = e.committed.db.sequence + 1 ∧ file.receipts.lookup key = some receipt ∧
    ∀ (capabilities : Capabilities) (opened : Engine Detail) (env : Environment),
      openRedb file capabilities = .ok opened →
      opened.executeIdempotent env key digest request =
        (opened, .ok ⟨receipt.response, true, digest, e.committed.db.sequence + 1⟩)

/-- A request under a key that fails changes nothing, unless its commit took place and the
database has to be opened again to see it. -/
theorem Engine.Coherent.failed_execution (h : e.Coherent) (hcertain : env.Certain)
    (hout : e.executeIdempotent env key digest request = (e', .error error)) :
    e' = e ∨ (error.code = .E_STORAGE_REOPEN_REQUIRED ∧ e.durable.isSome ∧
      e.TakenPlace key digest request e'.file) := by
  rcases e.executeIdempotent_cases env key digest request with
    ⟨error, hout'⟩ | ⟨_, -, -, hout'⟩ | ⟨statements, -, hwal, hstatements, hmutating, hout'⟩
  · rw [hout'] at hout
    cases hout
    exact .inl rfl
  · rw [hout'] at hout
    cases hout
  · rw [hout'] at hout
    cases htry : e.tryExecuteStatements env statements (some request.source)
      (some ⟨key, digest⟩) with
    | mk e'' result =>
      rw [htry] at hout
      cases result with
      | error error' =>
        cases hout
        refine (tryExecuteStatements_failure (hcertain.not_uncertain e) statements _ _
          htry).imp_right ?_
        rintro ⟨hcode, hdurable, candidate, response, receipts, hprepare, hfile⟩
        obtain ⟨heffect, hsequence, -⟩ := prepareScript_eq_ok hprepare
        obtain ⟨completed, hlookup⟩ := lookup_prepareScript hprepare
        have hreceipt := (hlookup key).trans (if_pos rfl)
        rw [hsequence] at hreceipt
        refine ⟨hcode, hdurable, ?_⟩
        rw [hfile]
        refine ⟨statements, _, hstatements, heffect, hsequence, hreceipt,
          fun capabilities opened env' hopened => ?_⟩
        obtain ⟨hcoherent, -, hcommitted, -⟩ := openRedb_coherent hopened
        exact hcoherent.replay (by rw [hcommitted]; exact hreceipt) env' request
      | ok reply =>
        obtain ⟨-, -, completed, hlookup⟩ :=
          h.reply_stored hwal hmutating (some request.source) htry
        rw [acknowledge_of_lookup hlookup] at hout
        cases hout

/-- What `prepareNewReceipt` has admitted is accepted when it is loaded. -/
theorem Engine.Coherent.admitted_valid (h : e.Coherent)
    (hmutating : statements.any Statement.isMutating) (hkey : e.NewKey pending)
    {receipts : ReceiptMap Detail}
    (hprepare : e.prepareScript env statements (some pending) =
      .ok (candidate, response, some receipts)) :
    validateReceipts receipts candidate.sequence = .ok receipts.size := by
  have hload := h.prepareScript hmutating (fun p hp => by cases hp; exact hkey) hprepare
  exact validateReceipts_eq_ok_iff.mpr hload

omit [Executor Body Detail] in
/-- A coherent redb database can be opened again exactly if its receipts can be read. -/
theorem Engine.Coherent.reload (h : e.Coherent) (hredb : e.storageMode = .redb)
    (capabilities : Capabilities) :
    ((∃ opened, openRedb e.file capabilities = .ok opened) ↔
      ∀ p ∈ e.file.receipts, p.2.Readable) ∧
    ∀ opened, openRedb e.file capabilities = .ok opened → opened.committed = e.file := by
  refine ⟨⟨fun ⟨opened, hopened⟩ => (openRedb_coherent hopened).2.2.2, fun hreadable => ?_⟩,
    fun opened hopened => (openRedb_coherent hopened).2.2.1⟩
  have hvalid := h.file hredb
  exact ⟨_, bind_eq_ok.mpr ⟨_, (loadReceipts_eq_ok_iff hvalid _).mpr hreadable,
    bind_eq_ok.mpr ⟨_, validateReceipts_eq_ok_iff.mpr hvalid, rfl⟩⟩⟩

/-- **Idempotency keys give exactly-once execution.** In every engine that requests with
certain commits can reach: a script under a key is applied at most once while its receipt is
retained, and only pruning ends that; its reply is stored, and the same request gets it again
and changes nothing; a request with another digest is refused as a conflict and changes
nothing; a request that fails changes nothing, unless its commit took place: then its receipt
is in the file, and once that is opened the same request is answered from it; the receipts that
are admitted pass the check of a load, and the file can be opened again exactly if the text of
every receipt is read. -/
theorem exactly_once {e : Engine Detail} (h : Reachable Body e) :
    (∀ (key : String) (ops : List (Op Body)), (∀ op ∈ ops, op.Certain) → Retains key e ops →
      applications key e ops ≤ 1) ∧
    (∀ (op : Op Body) (key : String) (receipt : IdempotencyReceipt Detail), op.Certain →
      e.image.receipts.lookup key = some receipt → ¬ op.Prunes e key →
      (e.after op).image.receipts.lookup key = some receipt) ∧
    (∀ (env : Environment) (key digest : String) (request : Request Body) (e' : Engine Detail)
      (execution : IdempotentExecution Detail),
      e.executeIdempotent env key digest request = (e', .ok execution) →
      execution.replayed = false →
      ∃ statements completed, request.statements = .ok statements ∧
        e.Effect statements e'.committed.db.db ∧
        e'.committed.db.sequence = e.committed.db.sequence + 1 ∧
        e'.committed.receipts.lookup key =
          some ⟨digest, e.committed.db.sequence + 1, completed, execution.response⟩) ∧
    (∀ (env : Environment) (key digest : String) (request : Request Body)
      (receipt : IdempotencyReceipt Detail), e.committed.receipts.lookup key = some receipt →
      (receipt.digest = digest → e.executeIdempotent env key digest request =
        (e, .ok ⟨receipt.response, true, digest, receipt.committedSequence⟩)) ∧
      (receipt.digest ≠ digest → ∃ error,
        e.executeIdempotent env key digest request = (e, .error error) ∧
        (validateDigest digest = .ok () → error.code = .E_IDEMPOTENCY_CONFLICT))) ∧
    (∀ (env : Environment) (key digest : String) (request : Request Body) (e' : Engine Detail)
      (error : Error), env.Certain →
      e.executeIdempotent env key digest request = (e', .error error) →
      e' = e ∨ (error.code = .E_STORAGE_REOPEN_REQUIRED ∧ e.durable.isSome ∧
        e.TakenPlace key digest request e'.file)) ∧
    (∀ (env : Environment) (statements : List (Statement Body)) (pending : PendingIdempotency)
      (candidate : DatabaseState) (response : QueryResponse Detail)
      (receipts : ReceiptMap Detail), statements.any Statement.isMutating → e.NewKey pending →
      e.prepareScript env statements (some pending) = .ok (candidate, response, some receipts) →
      validateReceipts receipts candidate.sequence = .ok receipts.size) ∧
    (e.storageMode = .redb → ∀ capabilities : Capabilities,
      ((∃ opened, openRedb e.file capabilities = .ok opened) ↔
        ∀ p ∈ e.file.receipts, p.2.Readable) ∧
      ∀ opened, openRedb e.file capabilities = .ok opened → opened.committed = e.file) := by
  have hcoherent := h.coherent
  refine ⟨fun key ops hops hretains => applications_le_one hcoherent hops hretains,
    fun op key receipt hop hreceipt hkept => (hcoherent.after hop).2 key receipt hreceipt hkept,
    fun env key digest request e' execution hout hfirst => hcoherent.first_execution hout hfirst,
    fun env key digest request receipt hreceipt => ⟨?_, fun hne =>
      hcoherent.conflict hreceipt hne env request⟩,
    fun env key digest request e' error hcertain hout => hcoherent.failed_execution hcertain hout,
    fun env statements pending candidate response receipts hmutating hkey hprepare =>
      hcoherent.admitted_valid hmutating hkey hprepare,
    fun hredb capabilities => hcoherent.reload hredb capabilities⟩
  rintro rfl
  exact hcoherent.replay hreceipt env request

end Scripts

section Trees

attribute [local instance] treeExternal

theorem treeEngine_reachable [ReceiptEncoding ReturnedColumns] :
    Reachable InsertStatement treeEngine := by
  have hopened : openRedb treeFile ⟨3, true, true, true, true, true⟩ = .ok treeEngine := rfl
  exact .opened (.redb false hopened)

theorem certain_committed (unreadable : Bool) : (environment .committed unreadable).Certain :=
  ⟨fun _ _ h => (by cases h), fun _ h => (by cases h)⟩

def treeRequest (n : ℕ) : Request InsertStatement := ⟨.ok (treeScript n), "insert", none⟩

def requestDigest : String :=
  "sha256:0123456789abcdef0123456789abcdef0123456789abcdef0123456789abcdef"

attribute [local instance] treeText

/-- The engine after a tree was inserted under a key. -/
def treeInserted : Engine ReturnedColumns :=
  treeEngine.after (.executeIdempotent (environment .committed false) "k" requestDigest
    (treeRequest 3))

/-- A tree was inserted once, and the same request gets the same response again. -/
theorem exactly_once_tree : ∃ receipt, treeInserted.committed.receipts.lookup "k" = some receipt ∧
    receipt.response.rows = [[("tree", tree 3)]] ∧
    (treeInserted.committed.db.db.objects["trees"]?.map fun table => table.rows.length) = some 1 ∧
    treeInserted.executeIdempotent (environment .committed false) "k" requestDigest
      (treeRequest 3) =
      (treeInserted, .ok ⟨receipt.response, true, requestDigest, 1⟩) := by
  have hreachable : Reachable InsertStatement treeInserted :=
    .after treeEngine_reachable (certain_committed false)
  refine ⟨_, rfl, rfl, rfl, ?_⟩
  exact ((exactly_once hreachable).2.2.2.1 _ "k" requestDigest (treeRequest 3) _ rfl).1 rfl

/-- **A request can fail and leave its receipt**: the commit succeeds, the new view cannot
be read, and the request fails with its receipt in the file. -/
theorem failed_request_leaves_receipt :
    Reachable InsertStatement treeEngine ∧ (environment .committed true).Certain ∧
    treeEngine.image.receipts.lookup "k" = none ∧
    ∃ error receipt,
      (treeEngine.executeIdempotent (environment .committed true) "k" requestDigest
        (treeRequest 3)).2 = .error error ∧
      (treeEngine.executeIdempotent (environment .committed true) "k" requestDigest
        (treeRequest 3)).1.image.receipts.lookup "k" = some receipt :=
  ⟨treeEngine_reachable, certain_committed true, rfl, _, _, rfl, rfl⟩

end Trees

end UnionId.Scripts
