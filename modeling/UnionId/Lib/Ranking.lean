import Mathlib.Data.Set.Card
import UnionId.Lib.Sorting

/-!
# Ranks in a sorted list

In a list where every element is ahead of those behind it, a running counter knows how
many elements are smaller than the current one, and how many distinct ones: it changes
only where an element does not tie with the one before it.

## Main results

* `smaller_of_lt`, `smaller_of_eq`, `smallerKinds_of_lt`, `smallerKinds_of_eq` — the
  counters, from one element to the next.
-/
namespace UnionId.Lib

open Std List

variable {α κ : Type} {order : α → α → Ordering} {R : α → α → Prop} {l p s : List α} {a b : α}

/-- How many elements are smaller. -/
def smaller (order : α → α → Ordering) (l : List α) (a : α) : ℕ :=
  l.countP fun c => order c a = .lt

/-- How many kinds of elements are smaller. -/
noncomputable def smallerKinds (order : α → α → Ordering) (kind : α → κ) (l : List α) (a : α) : ℕ :=
  {k | ∃ c ∈ l, order c a = .lt ∧ kind c = k}.ncard

@[simp] theorem smaller_nil : smaller order [] a = 0 := rfl

variable {kind : α → κ}

@[simp] theorem smallerKinds_nil : smallerKinds order kind [] a = 0 := by
  simp [smallerKinds]

theorem smaller_perm {r : List α} (h : r.Perm l) : smaller order r a = smaller order l a :=
  h.countP_eq _

theorem smallerKinds_perm {r : List α} (h : r.Perm l) :
    smallerKinds order kind r a = smallerKinds order kind l a := by
  simp only [smallerKinds, h.mem_iff]

variable [TransCmp order]

/-- Nothing from an element on is smaller than it. -/
theorem not_lt_of_ahead (h : (p ++ a :: s).Pairwise (Ahead order R)) : ∀ c ∈ a :: s,
    order c a ≠ .lt := by
  have hrest := (pairwise_append.mp h).2.1
  intro c hc hlt
  obtain rfl | hc := mem_cons.mp hc
  · have hself : order c c = .eq := ReflCmp.compare_self
    rw [hself] at hlt
    cases hlt
  · exact OrientedCmp.not_lt_of_isLE ((pairwise_cons.mp hrest).1 c hc).isLE hlt

/-- All that is smaller comes before. -/
theorem smaller_append (h : (p ++ a :: s).Pairwise (Ahead order R)) :
    smaller order (p ++ a :: s) a = smaller order p a := by
  have hzero : (a :: s).countP (fun c => order c a = .lt) = 0 :=
    countP_eq_zero.mpr fun c hc => by simpa using not_lt_of_ahead h c hc
  rw [smaller, countP_append, hzero, Nat.add_zero]
  rfl

theorem smallerKinds_append (h : (p ++ a :: s).Pairwise (Ahead order R)) :
    smallerKinds order kind (p ++ a :: s) a = smallerKinds order kind p a := by
  have hmem : ∀ c, (c ∈ p ++ a :: s ∧ order c a = .lt) ↔ c ∈ p ∧ order c a = .lt := by
    intro c
    rw [mem_append]
    exact ⟨fun ⟨hc, hlt⟩ => ⟨hc.resolve_right fun hc => not_lt_of_ahead h c hc hlt, hlt⟩,
      fun ⟨hc, hlt⟩ => ⟨.inl hc, hlt⟩⟩
  simp only [smallerKinds, ← and_assoc, hmem]

/-- How many are ahead of an element is its position. -/
theorem countP_ahead [DecidableRel R] (hR : ∀ a b, R a b → ¬R b a)
    (h : (p ++ a :: s).Pairwise (Ahead order R)) :
    (p ++ a :: s).countP (fun c => Ahead order R c a) = p.length := by
  obtain ⟨-, hrest, hcross⟩ := pairwise_append.mp h
  have hbefore : p.countP (fun c => Ahead order R c a) = p.length :=
    countP_eq_length.mpr fun c hc => by simpa using hcross c hc a mem_cons_self
  have hself : ¬Ahead order R a a := fun hself => Ahead.asymm hR hself hself
  have hafter : (a :: s).countP (fun c => Ahead order R c a) = 0 := by
    refine countP_eq_zero.mpr (forall_mem_cons.mpr ⟨by simpa using hself, fun c hc => ?_⟩)
    simpa using Ahead.asymm hR ((pairwise_cons.mp hrest).1 c hc)
  rw [countP_append, hbefore, hafter, Nat.add_zero]

section Step
variable (h : (p ++ [b]).Pairwise (Ahead order R))
include h

theorem isLE_last : ∀ c ∈ p ++ [b], (order c b).isLE := by
  intro c hc
  obtain hc | hc := mem_append.mp hc
  · exact ((pairwise_append.mp h).2.2 c hc b (by simp)).isLE
  · have hself : order b b = .eq := ReflCmp.compare_self
    rw [mem_singleton.mp hc, hself]
    rfl

/-- Past a larger element everything before is smaller. -/
theorem smaller_of_lt (hba : order b a = .lt) : smaller order (p ++ [b]) a = (p ++ [b]).length :=
  countP_eq_length.mpr fun c hc => by
    simpa using TransCmp.lt_of_isLE_of_lt (isLE_last h c hc) hba

/-- A tie leaves the count. -/
theorem smaller_of_eq (hba : order b a = .eq) : smaller order (p ++ [b]) a = smaller order p b := by
  have hcongr : smaller order (p ++ [b]) a = smaller order (p ++ [b]) b :=
    countP_congr fun c _ => by simp [TransCmp.congr_right hba]
  rw [hcongr, smaller_append h]

variable {kind : α → κ}

/-- One more kind is smaller. -/
theorem smallerKinds_of_lt (hkind : ∀ c ∈ p ++ [b], order c b = .eq ↔ kind c = kind b)
    (hba : order b a = .lt) :
    smallerKinds order kind (p ++ [b]) a = smallerKinds order kind p b + 1 := by
  have hset : {k | ∃ c ∈ p ++ [b], order c a = .lt ∧ kind c = k} =
      insert (kind b) {k | ∃ c ∈ p ++ [b], order c b = .lt ∧ kind c = k} := by
    ext k
    constructor
    · rintro ⟨c, hc, -, rfl⟩
      cases hord : order c b with
      | lt => exact .inr ⟨c, hc, hord, rfl⟩
      | eq => exact .inl ((hkind c hc).mp hord)
      | gt => simpa [hord] using isLE_last h c hc
    · rintro (rfl | ⟨c, hc, hlt, rfl⟩)
      · exact ⟨b, by simp, hba, rfl⟩
      · exact ⟨c, hc, TransCmp.lt_trans hlt hba, rfl⟩
  have hnew : kind b ∉ {k | ∃ c ∈ p ++ [b], order c b = .lt ∧ kind c = k} := by
    rintro ⟨c, hc, hlt, heq⟩
    rw [(hkind c hc).mpr heq] at hlt
    cases hlt
  have hfinite : {k | ∃ c ∈ p ++ [b], order c b = .lt ∧ kind c = k}.Finite := by
    refine (((p ++ [b]).finite_toSet).image kind).subset ?_
    rintro _ ⟨c, hc, -, rfl⟩
    exact ⟨c, hc, rfl⟩
  rw [smallerKinds, hset, Set.ncard_insert_of_notMem hnew hfinite]
  exact congrArg (· + 1) (smallerKinds_append h)

/-- A tie leaves the kinds. -/
theorem smallerKinds_of_eq (hba : order b a = .eq) :
    smallerKinds order kind (p ++ [b]) a = smallerKinds order kind p b := by
  have hcongr : smallerKinds order kind (p ++ [b]) a = smallerKinds order kind (p ++ [b]) b := by
    simp only [smallerKinds, TransCmp.congr_right hba]
  rw [hcongr, smallerKinds_append h]

end Step

end UnionId.Lib
