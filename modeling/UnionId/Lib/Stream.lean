import Mathlib.Data.List.Basic
import Mathlib.Data.List.TakeDrop

/-!
# Streams with early exit

A pipeline of operations on single elements and cuts can run on whole lists, one
operation after the other, or element by element with a counter at each cut and an
early exit once a cut is exhausted. Whatever the list run computes, the stream
computes too; the converse fails only for elements behind the exit, which the
stream never looks at.

## Main definitions

* `Op` — an operation: a step that may fail, drop or replace an element, or a cut.
* `listRun` — the operations one after the other on lists.
* `streamFrom` — element by element, with early exit.
-/
namespace UnionId.Lib

open List

variable {α : Type}

/-- One operation. A step returns `none` when it fails, `some none` when it drops
the element. -/
inductive Op (α : Type) where
  | step (f : α → Option (Option α))
  | take (offset limit : ℕ)

/-- How many elements have reached a cut, and how many have passed it. -/
structure Counter where
  seen : ℕ
  emitted : ℕ

abbrev Progress (α : Type) := List (Op α × Counter)

/-- Operations before the first element. -/
def fresh (ops : List (Op α)) : Progress α := ops.map (·, ⟨0, 0⟩)

def stepList (f : α → Option (Option α)) : List α → Option (List α)
  | [] => some []
  | a :: l => do
    let out ← f a
    let l ← stepList f l
    some (out.toList ++ l)

/-- The rest of an operation, on the rest of its input. -/
def Op.listFrom : Op α → Counter → List α → Option (List α)
  | .step f, _, l => stepList f l
  | .take offset limit, c, l => some ((l.drop (offset - c.seen)).take (limit - c.emitted))

/-- Operations one after the other, on the rest of the input. -/
def listFrom : Progress α → List α → Option (List α)
  | [], l => some l
  | (op, c) :: ops, l => (op.listFrom c l).bind (listFrom ops)

/-- Operations one after the other on lists. -/
def listRun (ops : List (Op α)) (l : List α) : Option (List α) := listFrom (fresh ops) l

/-- One element through the operations: what comes out, whether a cut is exhausted,
and the progress afterwards. -/
def streamOne : Progress α → α → (exhausted : Bool) → Option (Option α × Bool × Progress α)
  | [], a, exhausted => some (some a, exhausted, [])
  | (.step f, c) :: ops, a, exhausted =>
    match f a with
    | none => none
    | some none => some (none, exhausted, (.step f, c) :: ops)
    | some (some b) =>
      (streamOne ops b exhausted).map fun r => (r.1, r.2.1, (.step f, c) :: r.2.2)
  | (.take offset limit, c) :: ops, a, exhausted =>
    if c.seen < offset then
      some (none, exhausted, (.take offset limit, ⟨c.seen + 1, c.emitted⟩) :: ops)
    else if c.emitted ≥ limit then some (none, true, (.take offset limit, c) :: ops)
    else
      (streamOne ops a (exhausted || c.emitted + 1 = limit)).map fun r =>
        (r.1, r.2.1, (.take offset limit, ⟨c.seen + 1, c.emitted + 1⟩) :: r.2.2)

/-- Element by element, until a cut is exhausted. -/
def streamFrom : Progress α → List α → Option (List α)
  | _, [] => some []
  | ops, a :: l =>
    match streamOne ops a false with
    | none => none
    | some (out, true, _) => some out.toList
    | some (out, false, ops) => (streamFrom ops l).map (out.toList ++ ·)

/-! ## One element -/

section
variable {f : α → Option (Option α)} {c : Counter} {ops : Progress α} {a b : α} {e : Bool}
  {offset limit : ℕ}

theorem streamOne_drop (h : f a = some none) :
    streamOne ((.step f, c) :: ops) a e = some (none, e, (.step f, c) :: ops) := by
  rw [streamOne, h]

theorem streamOne_pass (h : f a = some (some b)) : streamOne ((.step f, c) :: ops) a e =
      (streamOne ops b e).map fun r => (r.1, r.2.1, (.step f, c) :: r.2.2) := by
  rw [streamOne, h]

theorem streamOne_fail (h : f a = none) : streamOne ((.step f, c) :: ops) a e = none := by
  rw [streamOne, h]

theorem streamOne_take (h : ¬c.seen < offset) (h' : ¬c.emitted ≥ limit) :
    streamOne ((.take offset limit, c) :: ops) a e =
      (streamOne ops a (e || c.emitted + 1 = limit)).map fun r =>
        (r.1, r.2.1, (.take offset limit, ⟨c.seen + 1, c.emitted + 1⟩) :: r.2.2) := by
  rw [streamOne, if_neg h, if_neg h']

/-- A cut that was exhausted before stays exhausted. -/
theorem streamOne_exhausted (ops : Progress α) (a : α) (e : Bool) :
    streamOne ops a e = (streamOne ops a false).map fun r => (r.1, e || r.2.1, r.2.2) := by
  induction ops generalizing a e with
  | nil => simp [streamOne]
  | cons op ops ih =>
    obtain ⟨f | ⟨offset, limit⟩, c⟩ := op
    · cases hf : f a with
      | none => rw [streamOne_fail hf, streamOne_fail hf, Option.map_none]
      | some out =>
        cases out with
        | none => simp [streamOne_drop hf]
        | some b =>
          rw [streamOne_pass hf, streamOne_pass hf, ih b e]
          simp [Option.map_map, Function.comp_def]
    · by_cases hs : c.seen < offset
      · simp [streamOne, hs]
      · by_cases he : c.emitted ≥ limit
        · simp [streamOne, hs, he]
        · rw [streamOne_take hs he, streamOne_take hs he, ih a (e || _), ih a (false || _)]
          simp [Option.map_map, Function.comp_def, Bool.or_assoc]

end

/-! ## The stream follows the lists -/

theorem listFrom_nil (ops : Progress α) : listFrom ops [] = some [] := by
  induction ops with
  | nil => rfl
  | cons op ops ih =>
    obtain ⟨op | ⟨offset, limit⟩, c⟩ := op
    · exact ih
    · simpa [listFrom, Op.listFrom] using ih

/-- One element of a list run: what comes out of it comes first, and the rest of the
run is a list run again; an exhausted cut leaves nothing for the rest. -/
theorem streamOne_of_listFrom {ops : Progress α} {a : α} {l out : List α}
    (h : listFrom ops (a :: l) = some out) : ∃ o e ops', streamOne ops a false = some (o, e, ops') ∧
      (e = true → out = o.toList) ∧
      (e = false → ∃ rest, out = o.toList ++ rest ∧ listFrom ops' l = some rest) := by
  induction ops generalizing a l with
  | nil =>
    cases h
    exact ⟨some a, false, [], rfl, by simp, fun _ => ⟨l, rfl, rfl⟩⟩
  | cons op ops ih =>
    obtain ⟨f | ⟨offset, limit⟩, c⟩ := op
    · obtain ⟨mid, hmid, hrest⟩ := Option.bind_eq_some_iff.mp h
      obtain ⟨o, ho, hmid⟩ := Option.bind_eq_some_iff.mp hmid
      obtain ⟨l', hl', hmid⟩ := Option.bind_eq_some_iff.mp hmid
      cases Option.some.inj hmid
      cases o with
      | none =>
        refine ⟨none, false, _, streamOne_drop ho, by simp, fun _ => ⟨out, rfl, ?_⟩⟩
        exact Option.bind_eq_some_iff.mpr ⟨l', hl', hrest⟩
      | some b =>
        obtain ⟨o, e, ops', hone, hstop, hgo⟩ := ih hrest
        refine ⟨o, e, _, (streamOne_pass ho).trans (by rw [hone]; rfl), hstop, fun he => ?_⟩
        obtain ⟨rest, hout, hl⟩ := hgo he
        exact ⟨rest, hout, Option.bind_eq_some_iff.mpr ⟨l', hl', hl⟩⟩
    · have h : listFrom ops (((a :: l).drop (offset - c.seen)).take (limit - c.emitted)) =
        some out := h
      by_cases hs : c.seen < offset
      · -- The element is skipped.
        refine ⟨none, false, _, by rw [streamOne, if_pos hs], by simp, fun _ => ⟨out, rfl, ?_⟩⟩
        have hdrop : offset - c.seen = offset - (c.seen + 1) + 1 := by omega
        rw [hdrop, drop_succ_cons] at h
        exact h
      · have hdrop : offset - c.seen = 0 := by omega
        rw [hdrop, drop_zero] at h
        by_cases he : c.emitted ≥ limit
        · -- The cut was exhausted before.
          have htake : limit - c.emitted = 0 := by omega
          rw [htake, take_zero, listFrom_nil] at h
          cases h
          exact ⟨none, true, _, by rw [streamOne, if_neg hs, if_pos he], fun _ => rfl, by simp⟩
        · have htake : limit - c.emitted = limit - (c.emitted + 1) + 1 := by omega
          rw [htake, take_succ_cons] at h
          obtain ⟨o, e, ops', hone, hstop, hgo⟩ := ih h
          refine ⟨o, decide (c.emitted + 1 = limit) || e, _,
            (streamOne_take hs he).trans (by rw [streamOne_exhausted, hone]; simp; rfl), ?_, ?_⟩
          · intro hexhausted
            cases e with
            | true => exact hstop rfl
            | false =>
              -- The element was the last one that the cut lets through.
              obtain ⟨rest, hout, hl⟩ := hgo rfl
              have hlast : limit - (c.emitted + 1) = 0 := by simp at hexhausted; omega
              rw [hlast, take_zero, listFrom_nil] at hl
              cases hl
              rw [hout, append_nil]
          · intro hexhausted
            rw [Bool.or_eq_false_iff] at hexhausted
            obtain ⟨rest, hout, hl⟩ := hgo hexhausted.2
            refine ⟨rest, hout, ?_⟩
            have hdrop : offset - (c.seen + 1) = 0 := by omega
            simpa [listFrom, Op.listFrom, hdrop] using hl

/-- **What the lists compute, the stream computes.** -/
theorem streamFrom_of_listFrom {ops : Progress α} {l out : List α}
    (h : listFrom ops l = some out) : streamFrom ops l = some out := by
  induction l generalizing ops out with
  | nil =>
    rw [listFrom_nil] at h
    exact h
  | cons a l ih =>
    obtain ⟨o, e, ops', hone, hstop, hgo⟩ := streamOne_of_listFrom h
    rw [streamFrom, hone]
    cases e with
    | true => simp [hstop rfl]
    | false =>
      obtain ⟨rest, rfl, hl⟩ := hgo rfl
      simp [ih hl]

/-! ## List runs -/

theorem listRun_cons (op : Op α) (ops : List (Op α)) (l : List α) :
    listRun (op :: ops) l = (op.listFrom ⟨0, 0⟩ l).bind (listRun ops) := rfl

end UnionId.Lib
