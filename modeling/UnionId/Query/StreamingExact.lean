import UnionId.Query.RowOrder
import UnionId.Query.Streaming

/-!
# Streamed runs and runs on lists

A query can run its stages one after the other on complete lists. A streamed run sends
single rows through the leading stages, stops when a cut is exhausted, and feeds an
aggregate as rows come. Both return the same rows: the leading stages of a run on lists
are a list run of the stream operations, and the stream follows list runs. A row sink
receives the rows as they come, or at the end; these are the rows of the response.

A streamed run counts the rows it keeps, which a run on lists does not, so a limit can
stop it where the other returns.

## Main results

* `runPipeline_returns` — a streamed run returns what the run on lists returns.
* `executeAccessSink_of_executeAccess`, `returns_of_executeAccessSink` — row sinks.
* `streaming_exact` — all of it.
-/
namespace UnionId

open Lib List

/-! ## The leading stages -/

section
variable [Semantics] {db : Database} {source : RowSource} {context : ListContext}
  {catalog : Catalog}

/-- A row without a source. -/
abbrev bare (row : Fields) : Unit × Fields := ((), row)

variable {stage : Stage} {row : Fields} {b b' r r' : ℕ} {out : List Fields} {state : ListState}
  {stages : List Stage} {rows : List Row}

theorem rowOutcome_eq_some {out : Option Fields}
    (h : applyRowStage catalog row stage b = .ok (out, b')) :
    rowOutcome catalog stage row = some out :=
  (applyRowStage_metered row stage).outcome_eq_some h

theorem stepList_of_applyRowStages {rows : List Fields}
    (h : applyRowStages catalog stage rows b = .ok (out, b')) :
    stepList (fun p : Unit × Fields => (rowOutcome catalog stage p.2).map (Option.map (p.1, ·)))
      (rows.map bare) = some (out.map bare) := by
  induction rows generalizing out b with
  | nil =>
    cases h
    rfl
  | cons row rows ih =>
    obtain ⟨o, c, ho, h⟩ := run_bind_eq_ok.mp h
    obtain ⟨rest, d, hrest, h⟩ := run_bind_eq_ok.mp h
    obtain ⟨rfl, rfl⟩ := run_pure_eq_ok.mp h
    rw [map_cons, stepList, rowOutcome_eq_some ho, ih hrest]
    cases o <;> rfl

theorem stepList_of_pure {f : Fields → Fields}
    (h : ∀ row, applyRowStage catalog row stage 0 = .ok (some (f row), 0)) (rows : List Fields) :
    stepList (fun p : Unit × Fields => (rowOutcome catalog stage p.2).map (Option.map (p.1, ·)))
      (rows.map bare) = some ((rows.map f).map bare) := by
  induction rows with
  | nil => rfl
  | cons row rows ih =>
    rw [map_cons, stepList, rowOutcome_eq_some (h row), ih]
    rfl

variable {position : ℕ} {kept : WorkingRows} {delivered : List Fields} {pipeline : Pipeline}
  {schema : List Column} {page : Option PreparedPage} {access : PlannedAccess}

/-- A stage that does not stop the stream does on lists what it does on single rows. -/
theorem runStage_streams {rows : List Fields}
    (hstream : blocksStream context position stage = false)
    (h : runStage db source context position ⟨rows, [], none⟩ stage b = .ok (state, b')) :
    ∃ out, state = ⟨out, [], none⟩ ∧
      (stageOp db.catalog stage).listFrom ⟨0, 0⟩ (rows.map bare) = some (out.map bare) := by
  cases stage with
  | relational stage => cases hstream
  | page spec => cases hstream
  | sort keys =>
    have hskip : context.access.orderedSort = some position := by
      simpa [blocksStream] using hstream
    rw [runStage, if_neg (by simpa using hskip)] at h
    obtain ⟨rfl, -⟩ := run_pure_eq_ok.mp h
    exact ⟨rows, rfl, (stepList_of_pure (f := id) (fun _ => rfl) rows).trans (by simp)⟩
  | select columns =>
    have hnow : (context.page.isSome && context.finalSort.any (position > ·)) = false := hstream
    rw [runStage, if_neg (by simpa using hnow)] at h
    obtain ⟨rfl, -⟩ := run_pure_eq_ok.mp h
    exact ⟨_, rfl, stepList_of_pure (fun _ => rfl) rows⟩
  | take offset limit =>
    obtain ⟨rfl, -⟩ := run_pure_eq_ok.mp h
    exact ⟨_, rfl, by simp [stageOp, Op.listFrom, map_take, map_drop]⟩
  | letBinding | filter | filterMatch | derive | deriveMatch =>
    obtain ⟨out, c, hout, h⟩ := run_bind_eq_ok.mp h
    obtain ⟨rfl, -⟩ := run_pure_eq_ok.mp h
    exact ⟨out, rfl, stepList_of_applyRowStages hout⟩

variable [External]

/-- **A run on lists** is a list run of the streaming stages, and then the rest. -/
theorem runStages_split {rows : List Fields}
    (h : runStages db source context position ⟨rows, [], none⟩ stages b = .ok (state, b')) :
    ∃ out c, listRun ((splitStreaming context position stages).1.map (stageOp db.catalog))
        (rows.map bare) = some (out.map bare) ∧
      runStages db source context (position + (splitStreaming context position stages).1.length)
        ⟨out, [], none⟩ (splitStreaming context position stages).2 c = .ok (state, b') := by
  induction stages generalizing position rows b with
  | nil => exact ⟨rows, b, rfl, h⟩
  | cons stage stages ih =>
    rw [splitStreaming]
    by_cases hblock : blocksStream context position stage = true
    · rw [if_pos hblock]
      exact ⟨rows, b, rfl, h⟩
    · rw [if_neg hblock]
      obtain ⟨next, c, hnext, h⟩ := run_bind_eq_ok.mp h
      obtain ⟨_, d, -, h⟩ := run_bind_eq_ok.mp h
      obtain ⟨mid, rfl, hmid⟩ := runStage_streams (by simpa using hblock) hnext
      obtain ⟨out, e, hout, hrest⟩ := ih h
      refine ⟨out, e, ?_, ?_⟩
      · rw [map_cons, listRun_cons, hmid]
        exact hout
      · rw [length_cons, Nat.add_comm _ 1, ← Nat.add_assoc]
        exact hrest

/-! ## Runs under another budget -/

omit [External] in
theorem applyRowStages_metered (stage : Stage) (rows : List Fields) :
    Metered budgetError (applyRowStages catalog stage rows) := by
  induction rows with
  | nil => exact .pure _ _
  | cons row rows ih =>
    exact (applyRowStage_metered row stage).bind fun _ => ih.bind fun _ => .pure _ _

omit [External] in
theorem runStage_metered (position : ℕ) (state : ListState) (stage : Stage) :
    Metered budgetError (runStage db source context position state stage) := by
  cases stage with
  | relational stage => exact (Metered.lift _ _).bind fun _ => .pure _ _
  | select columns => exact .ite (.pure _ _) (.pure _ _)
  | sort keys => exact .ite ((Metered.lift _ _).bind fun _ => .pure _ _) (.pure _ _)
  | take offset limit => exact .pure _ _
  | page spec =>
    rw [runStage]
    cases context.page with
    | none => exact .throw _ _
    | some page => exact (Metered.lift _ _).bind fun _ => .pure _ _
  | letBinding | filter | filterMatch | derive | deriveMatch =>
    exact (applyRowStages_metered _ _).bind fun _ => .pure _ _

theorem runStages_metered (position : ℕ) (state : ListState) (stages : List Stage) :
    Metered budgetError (runStages db source context position state stages) := by
  induction stages generalizing position state with
  | nil => exact .pure _ _
  | cons stage stages ih =>
    exact (runStage_metered position state stage).bind fun _ =>
      (Metered.lift _ _).bind fun _ => ih _ _

/-! ## The stream -/

omit [External] in
theorem progress_fresh (stages : List Stage) :
    (progress catalog (stages.map fun stage => (stage, ⟨0, 0⟩)) : Progress (Unit × Fields)) =
      fresh (stages.map (stageOp catalog)) := by
  simp [progress, fresh]

/-- **The stream keeps what it emits.** `Kept` describes what is kept of the rows that came
out so far; to keep a further row only a limit can fail. -/
theorem streamRows_returns {α σ : Type} {fields : α → Fields} {resident : σ → ℕ}
    {emit : σ → α → Fields → Result σ} {Kept : List Fields → σ → Prop} {total : List Fields}
    (hemit : ∀ p row rest, p ++ row :: rest = total → ∀ kept origin, Kept p kept →
      Returns IsLimit (emit kept origin row) (Kept (p ++ [row])))
    {stages : StreamingStages} {kept : σ} {l : List α} {p : List Fields}
    {out : List (Unit × Fields)}
    (hstream : streamFrom (progress catalog stages) (l.map fun a => bare (fields a)) = some out)
    (hout : p ++ out.map Prod.snd = total) (hkept : Kept p kept) (b : ℕ) :
    Answers IsLimit (streamRows catalog fields resident emit stages kept l) b (Kept total) := by
  induction l generalizing stages kept p out b with
  | nil =>
    cases hstream
    obtain rfl : p = total := by simpa using hout
    exact .pure hkept
  | cons a l ih =>
    rw [map_cons, streamFrom] at hstream
    cases hone : streamOne (progress catalog stages) (bare (fields a)) false with
    | none => simp [hone] at hstream
    | some r =>
      obtain ⟨o, exhausted, ops⟩ := r
      rw [hone] at hstream
      rw [streamRows]
      refine (applyStreamingPrefix_returns hone b).bind ?_
      rintro ⟨row, e, stages'⟩ c ⟨rfl, rfl, rfl⟩
      have hsnd : (row.map fun row => ((), row)).toList.map Prod.snd = row.toList := by
        cases row <;> rfl
      -- what is still to come out after this row
      obtain ⟨rest, hrest, hstop, hgo⟩ : ∃ rest, out.map Prod.snd = row.toList ++ rest ∧
          (e = true → rest = []) ∧ (e = false → ∃ later, rest = later.map Prod.snd ∧
            streamFrom (progress catalog stages') (l.map fun a =>
              bare (fields a)) = some later) := by
        cases e with
        | true =>
          cases hstream
          exact ⟨[], by simpa using hsnd, by simp, by simp⟩
        | false =>
          obtain ⟨later, hlater, rfl⟩ := Option.map_eq_some_iff.mp hstream
          exact ⟨later.map Prod.snd, by rw [map_append, hsnd], by simp, fun _ =>
            ⟨later, rfl, hlater⟩⟩
      rw [hrest, ← append_assoc] at hout
      have hkeep : Returns IsLimit (emitRow emit kept a row) (Kept (p ++ row.toList)) := by
        cases row with
        | none => exact .ok (by simpa using hkept)
        | some row => exact hemit p row rest (by simpa using hout) kept a hkept
      refine (Answers.lift hkeep).bind fun kept' d hkept' => ?_
      cases e with
      | true =>
        rw [hstop rfl, append_nil] at hout
        exact .pure (hout ▸ hkept')
      | false =>
        obtain ⟨later, rfl, hlater⟩ := hgo rfl
        exact ih hlater hout hkept' d

/-! ## Pipelines -/

omit [Semantics] in
theorem returns_appendWorkingRow (working : WorkingRows) (row : Fields) :
    Returns IsLimit (appendWorkingRow working row) fun next =>
      next.rows = working.rows ++ [row] := by
  rw [appendWorkingRow]
  split
  · exact .error rfl
  · exact (checkStreamingRowBytes_returns row working.bytes).bind fun _ _ => .ok rfl

omit [Semantics] in
theorem returns_checkMaterializedRows (rows : List Fields) :
    Returns IsLimit (checkMaterializedRows rows) fun _ => True := by
  rw [checkMaterializedRows]
  split
  · exact .error rfl
  · exact .ok trivial

omit [Semantics] in
/-- Of the rows that come out, all are kept. -/
theorem keeps_appendWorkingRow {total : List Fields} :
    ∀ p row rest, p ++ row :: rest = total → ∀ (kept : WorkingRows) (_ : Row), kept.rows = p →
      Returns IsLimit (appendWorkingRow kept row) fun next => next.rows = p ++ [row] := by
  rintro p row rest - kept _ rfl
  exact returns_appendWorkingRow kept row

/-- **What the stages compute one after the other, a streamed run computes**, unless a
limit stops it. -/
theorem runPipeline_returns
    (h : runStages db source context 0 ⟨rows.map Row.fields, [], none⟩ stages b = .ok (state, b'))
    (budget : ℕ) :
    Returns IsLimit (runPipeline db source context stages rows budget) fun r => r.1 = state := by
  obtain ⟨out, c, hlist, hrest⟩ := runStages_split h
  rw [Nat.zero_add] at hrest
  have hstream : streamFrom (progress db.catalog
      ((splitStreaming context 0 stages).1.map fun stage => (stage, ⟨0, 0⟩)))
      (rows.map fun row => bare row.fields) = some (out.map bare) := by
    rw [progress_fresh]
    refine streamFrom_of_listFrom ?_
    rw [← hlist, map_map]
    rfl
  have hsnd : [] ++ (out.map bare).map Prod.snd = out := by simp
  rw [runPipeline]
  cases haggregate : streamingAggregate (splitStreaming context 0 stages).2 with
  | some p =>
    obtain ⟨aggregate, rest⟩ := p
    obtain ⟨hsplit, hkind⟩ := streamingAggregate_eq_some haggregate
    rw [hsplit] at hrest
    obtain ⟨next, d, hnext, hrest⟩ := run_bind_eq_ok.mp hrest
    obtain ⟨_, e, hcheck, hrest⟩ := run_bind_eq_ok.mp hrest
    obtain ⟨grouped, f, hgrouped, hnext⟩ := run_bind_eq_ok.mp hnext
    obtain ⟨rfl, -⟩ := run_pure_eq_ok.mp hnext
    obtain ⟨hgrouped, -⟩ : relationalRows db source aggregate out = .ok grouped ∧ c = f :=
      run_lift_eq_ok.mp hgrouped
    rw [relationalRows, if_pos hkind] at hgrouped
    obtain ⟨groups, hgroups, hfinish⟩ := of_bind hgrouped
    have hemit : ∀ p row later, p ++ row :: later = out → ∀ kept (_ : Row),
        p.foldlM (Semantics.aggregateOneRow db.catalog aggregate)
          (Semantics.newAggregateGroups aggregate) = .ok kept →
        Returns IsLimit (Semantics.aggregateOneRow db.catalog aggregate kept row) fun next =>
          (p ++ [row]).foldlM (Semantics.aggregateOneRow db.catalog aggregate)
            (Semantics.newAggregateGroups aggregate) = .ok next := by
      rintro p row later rfl kept _ hkept
      rw [foldlM_append, hkept, ok_bind, foldlM_cons] at hgroups
      obtain ⟨next, hnext, -⟩ := of_bind hgroups
      refine .of_ok hnext ?_
      rw [foldlM_append, hkept, ok_bind, foldlM_cons, hnext]
      rfl
    refine Answers.bind (R := (· = state)) (streamRows_returns hemit hstream hsnd rfl budget) ?_
    intro groups' d hgroups'
    obtain rfl : groups' = groups := Except.ok.inj (hgroups'.symm.trans hgroups)
    refine (Answers.lift (.of_ok hfinish rfl : Returns IsLimit _ (· = grouped))).bind ?_
    rintro _ d rfl
    refine (Answers.lift (returns_checkMaterializedRows _)).bind fun _ d _ => ?_
    exact (runStages_metered _ _ _).returns isLimit_budgetError hrest d
  | none =>
    refine Answers.bind (R := (· = state)) (streamRows_returns keeps_appendWorkingRow hstream hsnd
      rfl budget) ?_
    rintro kept d rfl
    refine (Answers.lift (returns_checkMaterializedRows _)).bind fun _ d _ => ?_
    exact (runStages_metered _ _ _).returns isLimit_budgetError hrest d

/-! ## Row sinks -/

omit [Semantics] in
theorem checkStreamingRowBytes_of_le {n : ℕ} (hle : r' ≤ r)
    (h : checkStreamingRowBytes row r = .ok n) : checkStreamingRowBytes row r' = .ok n := by
  rw [checkStreamingRowBytes] at h ⊢
  split at h
  · cases h
  · rw [if_neg (by omega)]
    exact h

theorem streamRowStage_of_le (hle : r' ≤ r)
    {out : Option Fields} (h : streamRowStage catalog r row stage b = .ok (out, b')) :
    streamRowStage catalog r' row stage b = .ok (out, b') := by
  obtain ⟨o, c, ho, h⟩ := run_bind_eq_ok.mp h
  refine run_bind_eq_ok.mpr ⟨o, c, ho, ?_⟩
  cases o with
  | none => exact h
  | some row =>
    dsimp only at h ⊢
    split at h
    · obtain ⟨n, d, hcheck, h⟩ := run_bind_eq_ok.mp h
      obtain ⟨hbytes, rfl⟩ : checkStreamingRowBytes row r = .ok n ∧ c = d :=
        run_lift_eq_ok.mp hcheck
      rw [if_pos ‹_›]
      exact run_bind_eq_ok.mpr
        ⟨n, c, run_lift_eq_ok.mpr ⟨checkStreamingRowBytes_of_le hle hbytes, rfl⟩, h⟩
    · rw [if_neg ‹_›]
      exact h

/-- Fewer rows kept leave more room for the row in flight. -/
theorem applyStreamingPrefix_of_le (hle : r' ≤ r) {stages : StreamingStages}
    {exhausted : Bool} {out : Option Fields × Bool × StreamingStages}
    (h : applyStreamingPrefix catalog r stages row exhausted b = .ok (out, b')) :
    applyStreamingPrefix catalog r' stages row exhausted b = .ok (out, b') := by
  induction stages generalizing row exhausted out b b' with
  | nil => exact h
  | cons s stages ih =>
    obtain ⟨stage, state⟩ := s
    by_cases htake : stage.IsTake
    · obtain ⟨offset, limit, rfl⟩ := htake
      rw [applyStreamingPrefix] at h ⊢
      split
      · rwa [if_pos ‹_›] at h
      · rw [if_neg ‹_›] at h
        split
        · rwa [if_pos ‹_›] at h
        · rw [if_neg ‹_›] at h
          obtain ⟨o, c, ho, h⟩ := run_bind_eq_ok.mp h
          exact run_bind_eq_ok.mpr ⟨o, c, ih ho, h⟩
    · rw [applyStreamingPrefix_of_not_take htake] at h ⊢
      obtain ⟨o, c, ho, h⟩ := run_bind_eq_ok.mp h
      refine run_bind_eq_ok.mpr ⟨o, c, streamRowStage_of_le hle ho, ?_⟩
      cases o with
      | none => exact h
      | some row =>
        obtain ⟨o, d, ho, h⟩ := run_bind_eq_ok.mp h
        exact run_bind_eq_ok.mpr ⟨o, d, ih ho, h⟩

/-- The stream into a sink. -/
abbrev streamDirect (catalog : Catalog) (stages : StreamingStages) (delivered : List Fields)
    (rows : List Row) : Evaluation (List Fields) :=
  streamRows catalog Row.fields (fun _ => 0) (fun delivered _ row =>
    pure (delivered ++ [row])) stages
    delivered rows

omit [Semantics] in
theorem appendWorkingRow_eq_ok {working next : WorkingRows}
    (h : appendWorkingRow working row = .ok next) : next.rows = working.rows ++ [row] := by
  obtain ⟨next', hnext, hrows⟩ | ⟨e, he, -⟩ := returns_appendWorkingRow working row
  · rwa [Except.ok.inj (h.symm.trans hnext)]
  · cases h.symm.trans he

/-- A sink receives what would be kept. -/
theorem streamDirect_of_kept {stages : StreamingStages} {out : WorkingRows}
    (h : streamRows catalog Row.fields WorkingRows.bytes (fun kept _ => appendWorkingRow kept)
      stages kept rows b = .ok (out, b')) :
    streamDirect catalog stages kept.rows rows b = .ok (out.rows, b') := by
  induction rows generalizing stages kept b with
  | nil =>
    obtain ⟨rfl, rfl⟩ := run_pure_eq_ok.mp h
    rfl
  | cons row rows ih =>
    obtain ⟨⟨o, exhausted, stages'⟩, c, hone, h⟩ := run_bind_eq_ok.mp h
    obtain ⟨next, d, hnext, h⟩ := run_bind_eq_ok.mp h
    obtain ⟨hkept, rfl⟩ : emitRow (fun kept _ => appendWorkingRow kept) kept row o =
      .ok next ∧ c = d :=
      run_lift_eq_ok.mp hnext
    have hemit : emitRow (fun delivered _ row => pure (delivered ++ [row])) kept.rows row o =
        .ok next.rows := by
      cases o with
      | none =>
        cases hkept
        rfl
      | some out =>
        rw [appendWorkingRow_eq_ok hkept]
        rfl
    refine run_bind_eq_ok.mpr ⟨_, c, applyStreamingPrefix_of_le (Nat.zero_le _) hone, ?_⟩
    refine run_bind_eq_ok.mpr ⟨next.rows, c, run_lift_eq_ok.mpr ⟨hemit, rfl⟩, ?_⟩
    cases exhausted with
    | true =>
      obtain ⟨rfl, rfl⟩ := run_pure_eq_ok.mp h
      rfl
    | false => exact ih h

/-- What a sink has received has followed the stream. -/
theorem streamDirect_eq_ok {stages : StreamingStages}
    (h : streamDirect catalog stages delivered rows b = .ok (out, b')) :
    ∃ later, streamFrom (progress catalog stages) (rows.map fun row =>
      bare row.fields) = some later ∧
      out = delivered ++ later.map Prod.snd := by
  induction rows generalizing stages delivered b with
  | nil =>
    obtain ⟨rfl, -⟩ := run_pure_eq_ok.mp h
    exact ⟨[], rfl, by simp⟩
  | cons row rows ih =>
    obtain ⟨⟨o, exhausted, stages'⟩, c, hone, h⟩ := run_bind_eq_ok.mp h
    obtain ⟨next, d, hnext, h⟩ := run_bind_eq_ok.mp h
    obtain ⟨hsent, rfl⟩ : emitRow (fun delivered _ row =>
      pure (delivered ++ [row])) delivered row o =
        .ok next ∧ c = d := run_lift_eq_ok.mp hnext
    have hnext : next = delivered ++ o.toList := by
      cases o <;> cases hsent <;> simp
    have hsnd : (o.map fun row => ((), row)).toList.map Prod.snd = o.toList := by
      cases o <;> rfl
    rw [map_cons, streamFrom, applyStreamingPrefix_eq_ok () hone]
    cases exhausted with
    | true =>
      obtain ⟨rfl, -⟩ := run_pure_eq_ok.mp h
      exact ⟨_, rfl, by rw [hsnd, hnext]⟩
    | false =>
      obtain ⟨later, hlater, rfl⟩ := ih h
      dsimp only
      rw [hlater]
      refine ⟨_, rfl, ?_⟩
      rw [map_append, hsnd, hnext, append_assoc]

theorem runPipeline_of_streaming
    (hsplit : (splitStreaming context 0 stages).2 = []) (rows : List Row) :
    runPipeline db source context stages rows = (do
      let kept ← streamRows db.catalog Row.fields WorkingRows.bytes
        (fun kept _ => appendWorkingRow kept)
        ((splitStreaming context 0 stages).1.map fun stage => (stage, ⟨0, 0⟩)) ⟨[], 0⟩ rows
      let _ ← checkMaterializedRows kept.rows
      pure ⟨kept.rows, [], none⟩) := by
  rw [runPipeline]
  simp only [hsplit]
  rfl

/-- What a run returns goes to the sink. -/
theorem deliverRows_of_runPipeline (hrun : runPipeline db source context stages rows b =
    .ok (state, b'))
    (hout : runDeferred state.rows state.deferred = .ok out) :
    deliverRows db source context stages rows b = .ok (out, b') := by
  rw [deliverRows]
  cases hsplit : (splitStreaming context 0 stages).2 with
  | nil =>
    rw [runPipeline_of_streaming hsplit] at hrun
    obtain ⟨kept, c, hkept, hrun⟩ := run_bind_eq_ok.mp hrun
    obtain ⟨n, d, hcheck, hrun⟩ := run_bind_eq_ok.mp hrun
    obtain ⟨-, rfl⟩ : checkMaterializedRows kept.rows = .ok n ∧ c = d := run_lift_eq_ok.mp hcheck
    obtain ⟨rfl, rfl⟩ := run_pure_eq_ok.mp hrun
    cases hout
    exact streamDirect_of_kept hkept
  | cons stage rest =>
    exact run_bind_eq_ok.mpr ⟨state, b', hrun, run_lift_eq_ok.mpr ⟨hout, rfl⟩⟩

/-- What a sink has received is returned, unless a limit stops the run. -/
theorem returns_of_deliverRows (h : deliverRows db source context stages rows b = .ok (out, b')) :
    Returns IsLimit (runPipeline db source context stages rows b) fun r =>
      runDeferred r.1.rows r.1.deferred = .ok out := by
  rw [deliverRows] at h
  cases hsplit : (splitStreaming context 0 stages).2 with
  | nil =>
    rw [hsplit] at h
    obtain ⟨later, hlater, rfl⟩ := streamDirect_eq_ok h
    rw [runPipeline_of_streaming hsplit]
    refine Answers.bind (R := fun state : ListState => runDeferred state.rows state.deferred = _)
      (streamRows_returns keeps_appendWorkingRow hlater rfl rfl b) fun kept d hkept => ?_
    refine (Answers.lift (returns_checkMaterializedRows _)).bind fun _ d _ => .pure ?_
    rw [hkept]
    rfl
  | cons stage rest =>
    rw [hsplit] at h
    obtain ⟨state, c, hrun, hout⟩ := run_bind_eq_ok.mp h
    exact .of_ok hrun (run_lift_eq_ok.mp hout).1

/-- A sink receives the rows of the response. -/
theorem executeAccessSink_of_executeAccess {response : QueryResponse}
    (h : executeAccess db source pipeline schema page access = .ok response) :
    executeAccessSink db source pipeline page access = .ok response.rows := by
  obtain ⟨⟨context, rows⟩, hinput, ⟨state, budget⟩, hrun, h⟩ := of_bind₂ h
  obtain ⟨out, hout, h⟩ := of_bind h
  obtain ⟨-, h⟩ := of_refused h
  cases h
  exact bind_eq_ok.mpr ⟨_, hinput, bind_eq_ok.mpr
    ⟨(out, budget), deliverRows_of_runPipeline hrun hout, rfl⟩⟩

/-- The rows that a sink has received are those of a response. -/
theorem returns_of_executeAccessSink
    (h : executeAccessSink db source pipeline page access = .ok delivered) :
    Returns IsLimit (executeAccess db source pipeline schema page access) fun response =>
      response.rows = delivered := by
  obtain ⟨⟨context, rows⟩, hinput, ⟨out, budget⟩, hrun, h⟩ := of_bind₂ h
  cases h
  rw [executeAccess, hinput, ok_bind]
  refine (returns_of_deliverRows hrun).bind fun r hr => ?_
  dsimp only
  rw [hr, ok_bind]
  split
  · exact .error rfl
  · exact .ok rfl

/-- **Streaming computes what the stages compute one after the other.** A streamed run
returns the rows of the run on complete lists, unless a limit stops it; and the rows that
a sink receives are the rows of the response. -/
theorem streaming_exact (db : Database) (source : RowSource) :
    (∀ (context : ListContext) (stages : List Stage) (rows : List Row)
      (state : ListState) (b b' : ℕ),
      runStages db source context 0 ⟨rows.map Row.fields, [], none⟩ stages b = .ok (state, b') →
        ∀ budget, Returns IsLimit (runPipeline db source context stages rows budget) fun r =>
          r.1 = state) ∧
      ∀ (pipeline : Pipeline) (schema : List Column) (page : Option PreparedPage)
        (access : PlannedAccess),
        (∀ response, executeAccess db source pipeline schema page access = .ok response →
          executeAccessSink db source pipeline page access = .ok response.rows) ∧
        ∀ delivered, executeAccessSink db source pipeline page access = .ok delivered →
          Returns IsLimit (executeAccess db source pipeline schema page access) fun response =>
            response.rows = delivered :=
  ⟨fun _ _ _ _ _ _ h budget => runPipeline_returns h budget, fun _ _ _ _ =>
    ⟨fun _ h => executeAccessSink_of_executeAccess h, fun _ h => returns_of_executeAccessSink h⟩⟩

/-- A stream that keeps too many rows is stopped. -/
theorem streamRows_over_limit (hlen : kept.rows.length ≤ MAX_QUERY_WORKING_ROWS)
    (hover : MAX_QUERY_WORKING_ROWS < kept.rows.length + rows.length) (b : ℕ) :
    ∃ e, streamRows catalog Row.fields WorkingRows.bytes (fun kept _ =>
      appendWorkingRow kept) [] kept
      rows b = .error e ∧ IsLimit e := by
  induction rows generalizing kept with
  | nil =>
    rw [length_nil, Nat.add_zero] at hover
    omega
  | cons row rows ih =>
    have hstep : streamRows catalog Row.fields WorkingRows.bytes (fun kept _ =>
        appendWorkingRow kept) []
        kept (row :: rows) b = (appendWorkingRow kept row.fields >>= fun next =>
          streamRows catalog Row.fields WorkingRows.bytes (fun kept _ =>
            appendWorkingRow kept) [] next
            rows b) := by
      rw [streamRows, applyStreamingPrefix, run_bind, run_pure, ok_bind]
      exact run_lift_bind
    rw [hstep]
    by_cases hfull : kept.rows.length = MAX_QUERY_WORKING_ROWS
    · rw [appendWorkingRow, if_pos hfull]
      exact ⟨_, rfl, rfl⟩
    · obtain ⟨next, hnext, hrows⟩ | ⟨e, he, hlimit⟩ := returns_appendWorkingRow kept row.fields
      · rw [hnext, ok_bind]
        rw [length_cons] at hover
        refine ih ?_ ?_ <;> rw [hrows, length_append, length_singleton] <;> omega
      · rw [he]
        exact ⟨e, rfl, hlimit⟩

end

/-! ## Runs -/

section Runs

/-- No functions, no pattern matching and no relational stages. -/
@[reducible] def plainSemantics : Semantics where
  floatArithmetic _ a _ := a
  checkArguments _ _ := pure ()
  dynamicArity _ := 0
  call _ _ _ := fail .E_QUERY "no functions"
  MatchPredicate := Empty
  MatchArms := Empty
  Relational := Empty
  kind := Empty.elim
  bindMatch _ _ := Empty.elim
  bindMatchArms _ _ := Empty.elim
  evaluateMatch _ _ := Empty.elim
  evaluateMatchArms _ _ := Empty.elim
  evaluateMatch_metered _ _ := Empty.rec
  evaluateMatchArms_metered _ _ := Empty.rec
  bindRelational _ _ := Empty.elim
  applyRelational _ _ := Empty.elim
  Groups := Unit
  newAggregateGroups := Empty.elim
  aggregateOneRow _ := Empty.elim
  finishAggregateGroups _ := Empty.elim
  planDigest _ _ := ""
  databaseInstance _ := ""
  schemaInfo _ := ""
  sequence _ := 0
  cursorTooLarge _ := false

/-- Rows of fifteen bytes. -/
@[reducible] def smallRows : External := ⟨fun _ => 15, fun rows => 15 * rows.length, fun _ => ""⟩

attribute [local instance] plainSemantics smallRows

def numberRow (n : ℕ) : Row := ⟨n, [("x", .int 1)]⟩

/-- Every row, no page, and the position of the last sort. -/
def scanContext (sort : ℕ) : ListContext := ⟨.fullScan, none, some sort⟩

def sortByNumber : Stage := .sort [⟨"x", false, some .int⟩]

/-- **A limit can stop a streamed run where the run on lists returns.** The rows to be
sorted are counted when they are kept; the list of all rows is not. -/
theorem runPipeline_stopped : ∃ rows state e,
    runStages .empty Database.empty.rowSource (scanContext 0) 0 ⟨rows.map Row.fields, [], none⟩
      [sortByNumber] 0 = .ok (state, 0) ∧
    runPipeline .empty Database.empty.rowSource (scanContext 0) [sortByNumber] rows 0 = .error e ∧
    e.code = .E_LIMIT := by
  obtain ⟨n, hn⟩ : ∃ n, n = MAX_QUERY_WORKING_ROWS + 1 := ⟨_, rfl⟩
  have hschema : ∀ c ∈ [(⟨"x", .int, none, 1⟩ : Column)], c.ty.Bound := by
    intro c hc
    rw [mem_singleton.mp hc]
    exact Catalog.bound_leaf .int trivial rfl
  have hkeys : BoundKeys .empty [⟨"x", .int, none, 1⟩] [⟨"x", false, some .int⟩] := by
    intro key hkey
    rw [mem_singleton.mp hkey]
    exact ⟨.int, rfl, rfl⟩
  have hrow : Catalog.empty.WellTypedFields [⟨"x", .int, none, 1⟩] [("x", .int 1)] := by
    refine ⟨pairwise_singleton .., by simp, fun c hc => ?_⟩
    rw [mem_singleton.mp hc]
    exact ⟨_, rfl, _, rfl⟩
  have hfields : ((List.range n).map numberRow).map Row.fields = replicate n [("x", .int 1)] := by
    rw [map_map]
    exact (map_const' ..).trans (by rw [length_range])
  obtain ⟨order, horder⟩ := exists_rowOrder Catalog.sound_empty hschema hkeys
  obtain ⟨sorted, hsort, hperm, -⟩ := sortByTyped_stable horder id
    (l := replicate n [("x", .int 1)]) (R := fun _ _ => True)
    (fun row hmem => by rw [eq_of_mem_replicate hmem]; exact hrow)
    (pairwise_of_forall fun _ _ => trivial)
  have hsorted := perm_replicate.mp hperm
  have hsize : (sorted.map External.rowSize).sum = n * 15 := by
    rw [hsorted, map_replicate, sum_replicate]
    rfl
  have hcheck : checkMaterializedRows sorted = .ok (n * 15) := by
    rw [checkMaterializedRows, hsize, hn]
    rfl
  obtain ⟨e, he, hlimit⟩ : ∃ e, streamRows Catalog.empty Row.fields WorkingRows.bytes
      (fun kept _ => appendWorkingRow kept) [] ⟨[], 0⟩ ((List.range n).map numberRow) 0 = .error e ∧
        IsLimit e :=
    streamRows_over_limit (Nat.zero_le _) (by simp [hn]) 0
  refine ⟨(List.range n).map numberRow, ⟨sorted, [], none⟩, e, ?_, ?_, hlimit⟩
  · rw [hfields]
    refine run_bind_eq_ok.mpr ⟨⟨sorted, [], none⟩, 0, ?_, run_bind_eq_ok.mpr
      ⟨n * 15, 0, run_lift_eq_ok.mpr ⟨hcheck, rfl⟩, rfl⟩⟩
    exact run_bind_eq_ok.mpr ⟨sorted, 0, run_lift_eq_ok.mpr ⟨hsort, rfl⟩, rfl⟩
  · have hrun : runPipeline .empty Database.empty.rowSource (scanContext 0) [sortByNumber]
        ((List.range n).map numberRow) = (streamRows Catalog.empty Row.fields WorkingRows.bytes
          (fun kept _ => appendWorkingRow kept) [] ⟨[], 0⟩ ((List.range n).map numberRow) >>=
            fun kept => do
              let _ ← checkMaterializedRows kept.rows
              runStages .empty Database.empty.rowSource (scanContext 0) 0 ⟨kept.rows, [], none⟩
                [sortByNumber]) := rfl
    rw [hrun, run_bind, he]
    rfl

/-- Two cuts with a sort between them. -/
def cutStages : List Stage := [.take 1 3, sortByNumber, .take 0 2]

def cutRows : List Row := [⟨1, [("x", .int 4)]⟩, ⟨2, [("x", .int 9)]⟩, ⟨3, [("x", .int 5)]⟩,
  ⟨4, [("x", .int 7)]⟩, ⟨5, [("x", .int 1)]⟩]

/-- A source that scans these rows. -/
def cutSource : RowSource := { Database.empty.rowSource with scanRows := fun _ => .ok cutRows }

theorem streaming_exact_cuts :
    (Returns IsLimit (runPipeline .empty cutSource (scanContext 1) cutStages cutRows 0) fun r =>
      r.1.rows = [[("x", .int 5)], [("x", .int 7)]]) ∧
    executeAccessSink .empty cutSource ⟨"t", cutStages⟩ none .fullScan =
      .ok [[("x", .int 5)], [("x", .int 7)]] := by
  obtain ⟨hruns, hsinks⟩ := streaming_exact .empty cutSource
  refine ⟨(hruns (scanContext 1) cutStages cutRows _ 0 _ rfl 0).mono fun r hr => by rw [hr]; rfl,
    ?_⟩
  exact (hsinks ⟨"t", cutStages⟩ [] none .fullScan).1 _ rfl

end Runs

end UnionId
