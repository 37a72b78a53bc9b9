import UnionId.Query.Expression

/-!
# Evaluation is metered

An evaluation has one outcome and one cost; the budget only has to cover it. So
what a query computes can be said without the budget, and a budget that is too
small is the only way in which two runs can differ.
-/
namespace UnionId

open Lib

namespace Metered

/-- What an evaluation does with an operand that may have no value. -/
theorem operand {α : Type} {e : Error} {m : Evaluation (Option Value)}
    {none' : Evaluation α} {some' : Value → Evaluation α} (hm : Metered e m)
    (hnone : Metered e none') (hsome : ∀ v, Metered e (some' v)) :
    Metered e (m >>= fun o => match o with
      | none => none'
      | some v => some' v) := by
  refine hm.bind fun o => ?_
  cases o with
  | none => exact hnone
  | some v => exact hsome v

end Metered

theorem collectEntries_metered (pick : String × Value → Value) (entries : Fields) :
    Metered budgetError (collectEntries pick entries) := by
  induction entries with
  | nil => exact .pure _ _
  | cons entry entries ih => exact (Metered.drawUnit _).bind fun _ => ih.bind fun _ => .pure _ _

theorem callMapUnary_metered (name : String) (entries : Fields) :
    Metered budgetError (callMapUnary name entries) := by
  unfold callMapUnary
  split
  · exact (collectEntries_metered ..).bind fun _ => .pure _ _
  · split
    · exact (collectEntries_metered ..).bind fun _ => .pure _ _
    · exact (collectEntries_metered ..).bind fun _ => .pure _ _

theorem callMap_metered (name : String) {arguments : List (Evaluation (Option Value))}
    (h : ∀ m ∈ arguments, Metered budgetError m) :
    Metered budgetError (callMap name arguments) := by
  match arguments with
  | [] => exact .throw _ _
  | [map] =>
    exact Metered.operand (h map (by simp)) (.pure _ _) fun _ => (Metered.lift _ _).bind fun _ =>
      (callMapUnary_metered ..).bind fun _ => .pure _ _
  | [map, key] =>
    exact Metered.operand (h map (by simp)) (.pure _ _) fun _ => (Metered.lift _ _).bind fun _ =>
      Metered.operand (h key (by simp)) (.pure _ _) fun _ => (Metered.lift _ _).bind fun _ =>
        .pure _ _
  | _ :: _ :: _ :: _ => exact .throw _ _

theorem inOrder_metered {arguments : List (Evaluation (Option Value))}
    (h : ∀ m ∈ arguments, Metered budgetError m) : Metered budgetError (inOrder arguments) := by
  induction arguments with
  | nil => exact .pure _ _
  | cons m arguments ih =>
    obtain ⟨hm, hrest⟩ := List.forall_mem_cons.mp h
    refine Metered.operand hm (.pure _ _) fun v => (ih hrest).bind fun o => ?_
    cases o <;> exact .pure _ _

theorem findMember_metered (item : Value) (candidates : List Value) :
    Metered budgetError (findMember item candidates) := by
  induction candidates with
  | nil => exact .pure _ _
  | cons candidate candidates ih =>
    exact (Metered.drawUnit _).bind fun _ => .ite (.pure _ _) ih

theorem quantify_metered (all : Bool) {test : Value → Evaluation Bool} (items : List Value)
    (h : ∀ item, Metered budgetError (test item)) :
    Metered budgetError (quantify all test items) := by
  induction items with
  | nil => exact .pure _ _
  | cons item items ih =>
    exact (Metered.drawUnit _).bind fun _ => (h item).bind fun _ => .ite (.pure _ _) ih

variable [Builtins] {catalog : Catalog}

mutual
theorem evaluateScalar_metered (values : String → Option Value) :
    ∀ e : ScalarExpression, Metered budgetError (evaluateScalar catalog values e)
  | .reference path => by
    rw [evaluateScalar]
    exact .pure _ _
  | .parameter name ty => by
    rw [evaluateScalar]
    exact .throw _ _
  | .literal value => by
    rw [evaluateScalar]
    exact .pure _ _
  | .ascribed value ty => by
    rw [evaluateScalar]
    exact Metered.operand (evaluateScalar_metered values value) (.pure _ _) fun _ =>
      (Metered.lift _ _).bind fun _ => .pure _ _
  | .call name arguments => by
    have hall := evaluations_metered values arguments
    rw [evaluateScalar]
    refine Metered.ite (callMap_metered name hall) (Metered.ite ?_ (.throw _ _))
    refine (Metered.lift _ _).bind fun _ =>
      (inOrder_metered fun m hm => hall m (List.mem_of_mem_take hm)).bind fun o => ?_
    cases o with
    | none => exact .pure _ _
    | some vs => exact (Metered.lift _ _).bind fun _ => .pure _ _
  | .length value => by
    rw [evaluateScalar]
    exact Metered.operand (evaluateScalar_metered values value) (.pure _ _) fun _ =>
      Metered.lift _ _
  | .negate value ty => by
    rw [evaluateScalar]
    exact Metered.operand (evaluateScalar_metered values value) (.pure _ _) fun _ =>
      (Metered.lift _ _).bind fun _ => (Metered.lift _ _).bind fun _ => .pure _ _
  | .arithmetic left op right ty => by
    rw [evaluateScalar]
    exact Metered.operand (evaluateScalar_metered values left) (.pure _ _) fun _ =>
      Metered.operand (evaluateScalar_metered values right) (.pure _ _) fun _ =>
        (Metered.lift _ _).bind fun _ => (Metered.lift _ _).bind fun _ => .pure _ _

theorem evaluations_metered (values : String → Option Value) : ∀ arguments : List ScalarExpression,
      ∀ m ∈ evaluations catalog values arguments, Metered budgetError m
  | [] => by simp [evaluations]
  | argument :: arguments => by
    rw [evaluations, List.forall_mem_cons]
    exact ⟨evaluateScalar_metered values argument, evaluations_metered values arguments⟩
end

/-- A condition has one outcome and one cost. -/
theorem evaluateResolved_metered (values : String → Option Value) (e : BoolExpression) :
    Metered budgetError (evaluateResolved catalog values e) := by
  induction e generalizing values with
  | value value =>
    refine Metered.operand (evaluateScalar_metered values value) (.pure _ _) fun v => ?_
    split <;> exact .pure _ _
  | compare left op right operandType =>
    exact Metered.operand (evaluateScalar_metered values left) (.pure _ _) fun _ =>
      Metered.operand (evaluateScalar_metered values right) (.pure _ _) fun _ => .lift _ _
  | contains collection item =>
    exact Metered.operand (evaluateScalar_metered values collection) (.pure _ _) fun _ =>
      Metered.operand (evaluateScalar_metered values item) (.pure _ _) fun _ => .pure _ _
  | membership item collection negated =>
    exact Metered.operand (evaluateScalar_metered values item) (.pure _ _) fun _ =>
      Metered.operand (evaluateScalar_metered values collection) (.pure _ _) fun _ =>
        (Metered.lift _ _).bind fun _ => (findMember_metered ..).bind fun _ => .pure _ _
  | any collection binding predicate ih =>
    exact Metered.operand (evaluateScalar_metered values collection) (.pure _ _) fun _ =>
      (Metered.lift _ _).bind fun _ => quantify_metered _ _ fun _ => ih _
  | all collection binding predicate ih =>
    exact Metered.operand (evaluateScalar_metered values collection) (.pure _ _) fun _ =>
      (Metered.lift _ _).bind fun _ => quantify_metered _ _ fun _ => ih _
  | isSome value =>
    exact Metered.operand (evaluateScalar_metered values value) (.pure _ _) fun _ => .lift _ _
  | isNone value =>
    exact Metered.operand (evaluateScalar_metered values value) (.pure _ _) fun _ =>
      (Metered.lift _ _).bind fun _ => .pure _ _
  | not value ih => exact (ih values).bind fun _ => .pure _ _
  | and left right ihl ihr => exact (ihl values).bind fun _ => .ite (.pure _ _) (ihr values)
  | or left right ihl ihr => exact (ihl values).bind fun _ => .ite (.pure _ _) (ihr values)

theorem evaluate_metered (row : Fields) (e : BoolExpression) :
    Metered budgetError (evaluate catalog row e) := evaluateResolved_metered _ e

theorem evaluateDerive_metered (row : Fields) (e : BoolExpression) :
    Metered budgetError (evaluateDerive catalog row e) := by
  cases e with
  | value value =>
    refine (evaluateScalar_metered _ value).bind fun o => ?_
    cases o with
    | none => exact .throw _ _
    | some v => exact .pure _ _
  | _ => exact (evaluate_metered row _).bind fun _ => .pure _ _

end UnionId
