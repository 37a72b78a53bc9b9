import UnionId.Lib.Stream
import UnionId.Query.Execute
import UnionId.Query.Metering

/-!
# Streaming as a stream of operations

The streaming stages of a query are operations of a stream: what a stage does with
a row is its outcome, with the evaluation budget out of sight. A run that returns
has followed the stream, and a stream that has a result is run to it, unless a limit
stops the run.

## Main results

* `applyStreamingPrefix_eq_ok` — a row that passed the stages has followed the stream.
* `applyStreamingPrefix_returns` — the stages follow the stream, unless a limit stops them.
-/
namespace UnionId

open Lib

theorem isLimit_budgetError : IsLimit budgetError := rfl

section
variable [Semantics] {catalog : Catalog} {α : Type}

theorem applyRowStage_metered (row : Fields) (stage : Stage) :
    Metered budgetError (applyRowStage catalog row stage) := by
  cases stage with
  | filter e => exact (evaluate_metered row e).bind fun _ => .pure _ _
  | filterMatch p => exact (Semantics.evaluateMatch_metered ..).bind fun _ => .pure _ _
  | derive name e ty =>
    cases ty with
    | none => exact .throw _ _
    | some ty =>
      exact (evaluateDerive_metered row e).bind fun _ => (Metered.lift _ _).bind fun _ => .pure _ _
  | deriveMatch name arms ty =>
    exact (Semantics.evaluateMatchArms_metered ..).bind fun _ => .pure _ _
  | _ => exact .pure _ _

/-- What a stage does with a row, with the budget out of sight. -/
noncomputable def rowOutcome (catalog : Catalog) (stage : Stage) (row : Fields) :
    Option (Option Fields) :=
  outcome (applyRowStage catalog row stage)

/-- A streaming stage as an operation on rows that carry their source. -/
noncomputable def stageOp (catalog : Catalog) : Stage → Op (α × Fields)
  | .take offset limit => .take offset limit
  | stage => .step fun p => (rowOutcome catalog stage p.2).map (Option.map (p.1, ·))

/-- Streaming stages with their counters, as progress of a stream. -/
noncomputable def progress (catalog : Catalog) (stages : StreamingStages) :
    Progress (α × Fields) :=
  stages.map fun s => (stageOp catalog s.1, ⟨s.2.seen, s.2.emitted⟩)

def Stage.IsTake (stage : Stage) : Prop := ∃ offset limit, stage = .take offset limit

theorem stageOp_of_not_take {stage : Stage} (h : ¬stage.IsTake) :
    (stageOp catalog stage : Op (α × Fields)) =
      .step fun p => (rowOutcome catalog stage p.2).map (Option.map (p.1, ·)) := by
  cases stage with
  | take offset limit => exact absurd ⟨offset, limit, rfl⟩ h
  | _ => rfl

theorem progress_cons (stage : Stage) (state : StreamingTakeState) (stages : StreamingStages) :
    (progress catalog ((stage, state) :: stages) : Progress (α × Fields)) =
      (stageOp catalog stage, ⟨state.seen, state.emitted⟩) :: progress catalog stages := rfl

theorem streamingAggregate_eq_some {stages rest : List Stage} {aggregate : Dialect.Relational}
    (h : streamingAggregate stages = some (aggregate, rest)) :
    stages = .relational aggregate :: rest ∧ Semantics.kind aggregate = .aggregate := by
  cases stages with
  | nil => cases h
  | cons stage stages =>
    cases stage with
    | relational stage =>
      rw [streamingAggregate] at h
      split at h
      · next hkind =>
        cases h
        exact ⟨rfl, hkind⟩
      · cases h
    | _ => cases h

end

section
variable [Semantics] [External] {catalog : Catalog} {α σ : Type} {stage : Stage} {resident : ℕ}
  {row : Fields} {out : Option Fields}

theorem applyStreamingPrefix_of_not_take (h : ¬stage.IsTake) (resident : ℕ)
    (state : StreamingTakeState) (stages : StreamingStages) (row : Fields) (exhausted : Bool) :
    applyStreamingPrefix catalog resident ((stage, state) :: stages) row exhausted = (do
      match ← streamRowStage catalog resident row stage with
      | none => pure (none, exhausted, (stage, state) :: stages)
      | some row => do
        let r ← applyStreamingPrefix catalog resident stages row exhausted
        pure (r.1, r.2.1, (stage, state) :: r.2.2)) := by
  cases stage with
  | take offset limit => exact absurd ⟨offset, limit, rfl⟩ h
  | _ => rfl

omit [Semantics] in
theorem checkStreamingRowBytes_returns (row : Fields) (resident : ℕ) :
    Returns IsLimit (checkStreamingRowBytes row resident) fun n => n = External.rowSize row :=
  Returns.guard rfl fun _ => .ok rfl

variable {b b' : ℕ} {stages : StreamingStages} {exhausted exhausted' : Bool}

theorem streamRowStage_eq_ok (h : streamRowStage catalog resident row stage b = .ok (out, b')) :
    rowOutcome catalog stage row = some out := by
  obtain ⟨o, c, ho, h⟩ := run_bind_eq_ok.mp h
  have houtcome := (applyRowStage_metered row stage).outcome_eq_some ho
  cases o with
  | none =>
    obtain ⟨rfl, -⟩ := run_pure_eq_ok.mp h
    exact houtcome
  | some row' =>
    dsimp only at h
    split at h
    · obtain ⟨n, d, -, h⟩ := run_bind_eq_ok.mp h
      obtain ⟨rfl, -⟩ := run_pure_eq_ok.mp h
      exact houtcome
    · obtain ⟨rfl, -⟩ := run_pure_eq_ok.mp h
      exact houtcome

theorem streamRowStage_returns (h : rowOutcome catalog stage row = some out) (b : ℕ) :
    Answers IsLimit (streamRowStage catalog resident row stage) b (· = out) := by
  refine ((applyRowStage_metered row stage).returns_outcome isLimit_budgetError h b).bind ?_
  rintro o c rfl
  cases o with
  | none => exact .pure rfl
  | some row' =>
    dsimp only
    split
    · exact (Answers.lift (checkStreamingRowBytes_returns ..)).bind fun _ _ _ => .pure rfl
    · exact .pure rfl

/-- One row that gets through has followed the stream. -/
theorem applyStreamingPrefix_eq_ok {stages' : StreamingStages} (source : α)
    (h : applyStreamingPrefix catalog resident stages row exhausted b =
      .ok ((out, exhausted', stages'), b')) :
    streamOne (progress catalog stages) (source, row) exhausted =
      some (out.map (source, ·), exhausted', progress catalog stages') := by
  induction stages generalizing row exhausted exhausted' out stages' b b' with
  | nil =>
    cases h
    rfl
  | cons s stages ih =>
    obtain ⟨stage, state⟩ := s
    by_cases htake : stage.IsTake
    · obtain ⟨offset, limit, rfl⟩ := htake
      rw [applyStreamingPrefix] at h
      split at h
      · next hs =>
        cases h
        rw [progress_cons, stageOp, streamOne, if_pos hs]
        rfl
      · next hs =>
        split at h
        · next he =>
          cases h
          rw [progress_cons, stageOp, streamOne, if_neg hs, if_pos he]
          rfl
        · next he =>
          obtain ⟨r, c, hr, h⟩ := run_bind_eq_ok.mp h
          cases h
          rw [progress_cons, stageOp, streamOne_take hs he]
          rw [ih hr]
          rfl
    · rw [applyStreamingPrefix_of_not_take htake] at h
      obtain ⟨o, c, ho, h⟩ := run_bind_eq_ok.mp h
      have hrow := streamRowStage_eq_ok ho
      rw [progress_cons, stageOp_of_not_take htake]
      cases o with
      | none =>
        cases h
        rw [streamOne_drop (by rw [hrow]; rfl), progress_cons, stageOp_of_not_take htake]
        rfl
      | some row' =>
        obtain ⟨r, d, hr, h⟩ := run_bind_eq_ok.mp h
        cases h
        rw [streamOne_pass (b := (source, row')) (by rw [hrow]; rfl), ih hr, progress_cons,
          stageOp_of_not_take htake]
        rfl

/-- What one row has done, read as a step of the stream. -/
def Followed (catalog : Catalog) (source : α) (o : Option (α × Fields)) (exhausted : Bool)
    (ops : Progress (α × Fields)) (r : Option Fields × Bool × StreamingStages) : Prop :=
  r.1.map (source, ·) = o ∧ r.2.1 = exhausted ∧ progress catalog r.2.2 = ops

/-- One row follows the stream, unless a limit stops it. -/
theorem applyStreamingPrefix_returns {source : α} {o : Option (α × Fields)}
    {ops : Progress (α × Fields)}
    (h : streamOne (progress catalog stages) (source, row) exhausted = some (o, exhausted', ops))
    (b : ℕ) :
    Answers IsLimit (applyStreamingPrefix catalog resident stages row exhausted) b
      (Followed catalog source o exhausted' ops) := by
  induction stages generalizing row exhausted exhausted' o ops b with
  | nil =>
    cases h
    exact .pure ⟨rfl, rfl, rfl⟩
  | cons s stages ih =>
    obtain ⟨stage, state⟩ := s
    by_cases htake : stage.IsTake
    · obtain ⟨offset, limit, rfl⟩ := htake
      rw [progress_cons, stageOp, streamOne] at h
      rw [applyStreamingPrefix]
      split at h
      · next hs =>
        cases h
        rw [if_pos hs]
        exact .pure ⟨rfl, rfl, rfl⟩
      · next hs =>
        split at h
        · next he =>
          cases h
          rw [if_neg hs, if_pos he]
          exact .pure ⟨rfl, rfl, rfl⟩
        · next he =>
          obtain ⟨⟨o', e', ops'⟩, hone, h⟩ := Option.map_eq_some_iff.mp h
          cases h
          rw [if_neg hs, if_neg he]
          refine (ih hone b).bind ?_
          rintro r d ⟨rfl, rfl, rfl⟩
          exact .pure ⟨rfl, rfl, rfl⟩
    · rw [progress_cons, stageOp_of_not_take htake] at h
      rw [applyStreamingPrefix_of_not_take htake]
      cases hrow : rowOutcome catalog stage row with
      | none =>
        rw [streamOne_fail (by rw [hrow]; rfl)] at h
        cases h
      | some out =>
        cases out with
        | none =>
          rw [streamOne_drop (by rw [hrow]; rfl)] at h
          cases h
          refine (streamRowStage_returns hrow b).bind ?_
          rintro _ d rfl
          refine .pure ⟨rfl, rfl, ?_⟩
          rw [progress_cons, stageOp_of_not_take htake]
        | some row' =>
          rw [streamOne_pass (b := (source, row')) (by rw [hrow]; rfl)] at h
          obtain ⟨⟨o', e', ops'⟩, hone, h⟩ := Option.map_eq_some_iff.mp h
          cases h
          refine (streamRowStage_returns hrow b).bind ?_
          rintro _ d rfl
          refine (ih hone d).bind ?_
          rintro r d ⟨rfl, rfl, rfl⟩
          refine .pure ⟨rfl, rfl, ?_⟩
          rw [progress_cons, stageOp_of_not_take htake]

end
end UnionId
