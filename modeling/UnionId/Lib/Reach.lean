import Mathlib.Data.List.Nodup
import Mathlib.Logic.Function.Iterate
import Mathlib.Logic.Relation

/-!
# Reachability and saturation

A list that names every successor of a point after the point itself is closed under the
relation, and no two of its points reach each other. Repeating a step that only extends
a list of bounded length ends in a fixed point.

## Main results

* `Ordered.not_mutual` — an ordered list has no cycle through two of its points.
* `iterate_fixed` — bounded extension reaches a fixed point.
-/
namespace UnionId.Lib

open Relation List

section Relation
variable {α : Type*} {r : α → α → Prop}

/-- No two different points reach each other. -/
def NoMutualCycle (r : α → α → Prop) : Prop :=
  ∀ a b, a ≠ b → TransGen r a b → ¬TransGen r b a

/-- Each point of the list is followed by its successors. -/
def Ordered (r : α → α → Prop) : List α → Prop
  | [] => True
  | a :: l => (∀ b, r a b → b = a ∨ b ∈ l) ∧ Ordered r l

variable {l : List α} {a b : α}

theorem Ordered.mem_of_step (h : Ordered r l) (ha : a ∈ l) (hab : r a b) : b ∈ l := by
  induction l with
  | nil => cases ha
  | cons c l ih =>
    obtain rfl | ha := mem_cons.mp ha
    · exact mem_cons.mpr (h.1 b hab)
    · exact mem_cons_of_mem _ (ih h.2 ha)

theorem Ordered.mem_of_reaches (h : Ordered r l) (ha : a ∈ l) (hab : TransGen r a b) : b ∈ l := by
  induction hab with
  | single hstep => exact h.mem_of_step ha hstep
  | tail _ hstep ih => exact h.mem_of_step ih hstep

/-- **An ordered list has no cycle through two of its points.** -/
theorem Ordered.not_mutual (h : Ordered r l) (hnodup : l.Nodup) (ha : a ∈ l)
    (hb : b ∈ l) (hne : a ≠ b) (hab : TransGen r a b) : ¬TransGen r b a := by
  intro hba
  induction l with
  | nil => cases ha
  | cons c l ih =>
    obtain ⟨hfresh, hnodup⟩ := nodup_cons.mp hnodup
    obtain rfl | ha' := mem_cons.mp ha
    · obtain rfl | hb := mem_cons.mp hb
      · exact hne rfl
      · exact hfresh (h.2.mem_of_reaches hb hba)
    · obtain rfl | hb := mem_cons.mp hb
      · exact hfresh (h.2.mem_of_reaches ha' hab)
      · exact ih h.2 hnodup ha' hb

end Relation

section Saturation
variable {α : Type*} {f : List α → List α} {P : List α → Prop} {n : ℕ}

/-- **Bounded extension reaches a fixed point.** -/
theorem iterate_fixed (hsuffix : ∀ l, l <:+ f l) (hP : ∀ l, P l → P (f l))
    (hbound : ∀ l, P l → l.length ≤ n) {l : List α} (hl : P l) : f (f^[n] l) = f^[n] l := by
  have hlonger : ∀ l, f l ≠ l → l.length < (f l).length := fun l hne =>
    Nat.lt_of_le_of_ne (hsuffix l).length_le fun heq => hne ((hsuffix l).eq_of_length heq).symm
  have hiterate : ∀ k, P (f^[k] l) := by
    intro k
    induction k with
    | zero => exact hl
    | succ k ih => exact Function.iterate_succ_apply' f k l ▸ hP _ ih
  -- a step that is not yet fixed has made the list as long as the number of steps
  have hgrow : ∀ k, f (f^[k] l) = f^[k] l ∨ k ≤ (f^[k] l).length := by
    intro k
    induction k with
    | zero => exact .inr (Nat.zero_le _)
    | succ k ih =>
      rw [Function.iterate_succ_apply']
      by_cases hfixed : f (f^[k] l) = f^[k] l
      · exact .inl (by rw [hfixed, hfixed])
      · exact .inr (Nat.lt_of_le_of_lt (ih.resolve_left hfixed) (hlonger _ hfixed))
  by_contra hne
  have hlen := (hgrow n).resolve_left hne
  have hnext := hbound _ (hP _ (hiterate n))
  exact absurd (hlonger _ hne) (by omega)

end Saturation

end UnionId.Lib
