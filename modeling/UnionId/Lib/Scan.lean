import UnionId.Lib.Fallible
import Mathlib.Data.List.Chain

/-!
# Scans that can fail

A scan visits the elements of a list, fails at the first that is wrong, and keeps an
accumulator. When the step says for each element what makes it wrong, the whole scan says
it for all elements. A scan of a sorted list that remembers the group of the element
before finds two elements of one group anywhere in the list, provided that groups are
contiguous.

## Main results

* `foldlM_eq_ok_iff` — a scan whose steps do not depend on the accumulator.
* `foldlM_adjacent_eq_ok_iff` — a scan that compares each element with the one before.
* `isChain_iff_pairwise_of_contiguous` — neighbours decide about all pairs.
-/
namespace UnionId.Lib

open List

variable {ε σ α κ : Type*} {l : List α} {right : α → Prop} {group : α → Option κ}

/-- A scan succeeds exactly when every element is right, and then folds the updates. -/
theorem foldlM_eq_ok_iff {f : σ → α → Except ε σ} {update : σ → α → σ}
    (step : ∀ a ∈ l, ∀ s s', f s a = .ok s' ↔ right a ∧ s' = update s a) {s s' : σ} :
    l.foldlM f s = .ok s' ↔ (∀ a ∈ l, right a) ∧ s' = l.foldl update s := by
  induction l generalizing s with
  | nil => simp [eq_comm]
  | cons a l ih =>
    have hstep := step a mem_cons_self
    have hrest : ∀ b ∈ l, ∀ s s', f s b = .ok s' ↔ right b ∧ s' = update s b :=
      fun b hb => step b (mem_cons_of_mem a hb)
    simp only [foldlM_cons, bind_eq_ok, hstep, forall_mem_cons, foldl_cons]
    constructor
    · rintro ⟨t, ⟨ha, rfl⟩, h⟩
      have h := (ih hrest).mp h
      exact ⟨⟨ha, h.1⟩, h.2⟩
    · rintro ⟨⟨ha, hl⟩, rfl⟩
      exact ⟨update s a, ⟨ha, rfl⟩, (ih hrest).mpr ⟨hl, rfl⟩⟩

/-- A count of what each element contributes. -/
theorem foldl_add_length {β : Type*} (f : α → List β) (l : List α) (n : ℕ) :
    l.foldl (fun n a => n + (f a).length) n = n + (l.flatMap f).length := by
  induction l generalizing n with
  | nil => rfl
  | cons a l ih => rw [foldl_cons, ih, flatMap_cons, length_append, Nat.add_assoc]

def Apart (group : α → Option κ) (a b : α) : Prop := ∀ g, group a = some g → group b ≠ some g

instance (group : α → Option κ) : Std.Symm (Apart group) :=
  ⟨fun _ _ hab g hb ha => hab g ha hb⟩

section Adjacent
variable {f : Option κ × ℕ → α → Except ε (Option κ × ℕ)}
  (step : ∀ previous n a s', f (previous, n) a = .ok s' ↔
    right a ∧ (∀ g, previous = some g → group a ≠ some g) ∧ s' = (group a, n + 1))
  {n : ℕ} {s' : Option κ × ℕ}
include step

theorem foldlM_adjacent_cons {a : α} :
    l.foldlM f (group a, n) = .ok s' ↔ (∀ b ∈ l, right b) ∧ (a :: l).IsChain (Apart group) ∧
      s' = (((a :: l).getLast?.bind group), n + l.length) := by
  induction l generalizing a n with
  | nil => simp [eq_comm]
  | cons b l ih =>
    rw [foldlM_cons, bind_eq_ok]
    simp only [step, forall_mem_cons, isChain_cons_cons, getLast?_cons_cons,
      length_cons]
    constructor
    · rintro ⟨t, ⟨hb, hapart, rfl⟩, h⟩
      obtain ⟨hright, hchain, hs⟩ := ih.mp h
      refine ⟨⟨hb, hright⟩, ⟨hapart, hchain⟩, ?_⟩
      rw [hs, Nat.add_right_comm, Nat.add_assoc]
    · rintro ⟨⟨hb, hright⟩, ⟨hapart, hchain⟩, rfl⟩
      refine ⟨(group b, n + 1), ⟨hb, hapart, rfl⟩, ih.mpr ⟨hright, hchain, ?_⟩⟩
      rw [Nat.add_right_comm, Nat.add_assoc]

/-- A scan that counts, and fails at an element whose group is that of the element
before. -/
theorem foldlM_adjacent_eq_ok_iff :
    l.foldlM f (none, n) = .ok s' ↔ (∀ a ∈ l, right a) ∧ l.IsChain (Apart group) ∧
      s' = ((l.getLast?.bind group), n + l.length) := by
  cases l with
  | nil => simp [eq_comm]
  | cons a l =>
    rw [foldlM_cons, bind_eq_ok]
    constructor
    · rintro ⟨t, ht, h⟩
      obtain ⟨ha, -, rfl⟩ := (step none n a t).mp ht
      obtain ⟨hright, hchain, hs⟩ := (foldlM_adjacent_cons step).mp h
      refine ⟨forall_mem_cons.mpr ⟨ha, hright⟩, hchain, ?_⟩
      rw [hs, length_cons, Nat.add_right_comm, Nat.add_assoc]
    · rintro ⟨hright, hchain, rfl⟩
      obtain ⟨ha, hright⟩ := forall_mem_cons.mp hright
      refine ⟨(group a, n + 1), (step none n a _).mpr ⟨ha, by simp, rfl⟩, ?_⟩
      refine (foldlM_adjacent_cons step).mpr ⟨hright, hchain, ?_⟩
      rw [length_cons, Nat.add_right_comm, Nat.add_assoc]

end Adjacent

/-- **Neighbours decide about all pairs** when each group is contiguous: between two
elements of a group lie only elements of that group. -/
theorem isChain_iff_pairwise_of_contiguous
    (contiguous : ∀ a b c g, [a, b, c].Sublist l → group a = some g → group c = some g →
      group b = some g) : l.IsChain (Apart group) ↔ l.Pairwise (Apart group) := by
  refine ⟨fun h => ?_, List.Pairwise.isChain⟩
  induction l with
  | nil => exact .nil
  | cons a l ih =>
    have hrest := ih (fun a b c g hsub => contiguous a b c g (hsub.cons _)) h.tail
    refine .cons (fun c hc g ha hcg => ?_) hrest
    cases l with
    | nil => cases hc
    | cons b l =>
      have hab : Apart group a b := (isChain_cons_cons.mp h).1
      rcases mem_cons.mp hc with rfl | hc
      · exact hab g ha hcg
      · have hsub : [a, b, c].Sublist (a :: b :: l) :=
          ((singleton_sublist.mpr hc).cons_cons b).cons_cons a
        exact hab g ha (contiguous a b c g hsub ha hcg)

end UnionId.Lib
