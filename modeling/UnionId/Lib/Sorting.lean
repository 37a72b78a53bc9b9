import Mathlib.Data.List.Sort
import UnionId.Lib.Fallible

/-!
# Sorting by a comparison that may fail

A stable insertion sort whose comparison can fail; the first failure ends it.
Where the comparison never fails, every element is ahead of those behind it, and
elements that tie keep the order they come in.
-/
namespace UnionId.Lib

open List

variable {ε α : Type}

/-- Insert before the first element that is not smaller. -/
def insertM (cmp : α → α → Except ε Ordering) (a : α) : List α → Except ε (List α)
  | [] => pure [a]
  | b :: l => do
    match ← cmp a b with
    | .gt => do
      let l ← insertM cmp a l
      pure (b :: l)
    | _ => pure (a :: b :: l)

/-- A stable sort. -/
def sortM (cmp : α → α → Except ε Ordering) : List α → Except ε (List α)
  | [] => pure []
  | a :: l => do
    let l ← sortM cmp l
    insertM cmp a l

theorem insertM_perm {cmp : α → α → Except ε Ordering} {a : α} {l r : List α}
    (h : insertM cmp a l = .ok r) : r.Perm (a :: l) := by
  induction l generalizing r with
  | nil =>
    cases h
    exact .refl _
  | cons b l ih =>
    obtain ⟨o, -, h⟩ := of_bind h
    cases o with
    | gt =>
      obtain ⟨l', hl', rfl⟩ := of_bind_pure h
      exact ((ih hl').cons b).trans (.swap a b l)
    | lt | eq =>
      cases h
      exact .refl _

/-- A sort rearranges. -/
theorem sortM_perm {cmp : α → α → Except ε Ordering} {l r : List α}
    (h : sortM cmp l = .ok r) : r.Perm l := by
  induction l generalizing r with
  | nil =>
    cases h
    exact .refl _
  | cons a l ih =>
    obtain ⟨l', hl', h⟩ := of_bind h
    exact (insertM_perm h).trans ((ih hl').cons a)

/-! ## Stability -/

section Stable
variable {order : α → α → Ordering} {R : α → α → Prop}

/-- Smaller, or tied and earlier. -/
def Ahead (order : α → α → Ordering) (R : α → α → Prop) (a b : α) : Prop :=
  order a b = .lt ∨ order a b = .eq ∧ R a b

instance [DecidableRel R] (a b : α) : Decidable (Ahead order R a b) :=
  inferInstanceAs (Decidable (_ ∨ _ ∧ _))

namespace Ahead

variable {a b : α}

theorem isLE (h : Ahead order R a b) : (order a b).isLE := by
  obtain h | ⟨h, -⟩ := h <;> simp [h]

variable [Std.TransCmp order]

theorem of_isLE {c : α} (hab : (order a b).isLE) (hbc : Ahead order R b c) (hR : R a c) :
    Ahead order R a c := by
  obtain hbc | ⟨hbc, -⟩ := hbc
  · exact .inl (Std.TransCmp.lt_of_isLE_of_lt hab hbc)
  · cases hord : order a b with
    | lt => exact .inl (Std.TransCmp.lt_of_lt_of_eq hord hbc)
    | eq => exact .inr ⟨Std.TransCmp.eq_trans hord hbc, hR⟩
    | gt => simp [hord] at hab

/-- Nothing is ahead of what it is behind. -/
theorem asymm (hR : ∀ a b, R a b → ¬R b a) (h : Ahead order R a b) : ¬Ahead order R b a := by
  rintro (hlt | ⟨heq, hba⟩)
  · exact Std.OrientedCmp.not_lt_of_isLE h.isLE hlt
  · obtain hlt | ⟨-, hab⟩ := h
    · rw [Std.OrientedCmp.eq_symm heq] at hlt
      cases hlt
    · exact hR a b hab hba

end Ahead

variable {cmp : α → α → Except ε Ordering} [Std.TransCmp order]

theorem insertM_stable {a : α} {l : List α} (hcmp : ∀ b ∈ l, cmp a b = .ok (order a b))
    (hfirst : ∀ b ∈ l, R a b) (hl : l.Pairwise (Ahead order R)) :
    ∃ r, insertM cmp a l = .ok r ∧ r.Pairwise (Ahead order R) := by
  induction l with
  | nil => exact ⟨[a], rfl, pairwise_singleton ..⟩
  | cons b l ih =>
    obtain ⟨hb, hrest⟩ := forall_mem_cons.mp hcmp
    obtain ⟨hab, hal⟩ := forall_mem_cons.mp hfirst
    obtain ⟨hbl, hl'⟩ := pairwise_cons.mp hl
    have hkeep : (order a b).isLE → (a :: b :: l).Pairwise (Ahead order R) := by
      intro hle
      refine pairwise_cons.mpr ⟨forall_mem_cons.mpr ⟨?_, fun c hc => ?_⟩, hl⟩
      · cases hord : order a b with
        | lt => exact .inl hord
        | eq => exact .inr ⟨hord, hab⟩
        | gt => simp [hord] at hle
      · exact .of_isLE hle (hbl c hc) (hal c hc)
    rw [insertM, hb]
    cases hord : order a b with
    | gt =>
      obtain ⟨r, hr, hsorted⟩ := ih hrest hal hl'
      refine ⟨b :: r, by rw [ok_bind, hr]; rfl, pairwise_cons.mpr ⟨fun c hc => ?_, hsorted⟩⟩
      obtain rfl | hc := mem_cons.mp ((insertM_perm hr).mem_iff.mp hc)
      · exact .inl (Std.OrientedCmp.lt_of_gt hord)
      · exact hbl c hc
    | lt | eq => exact ⟨a :: b :: l, rfl, hkeep (by simp [hord])⟩

/-- **A sort is stable**: elements that tie keep the order they come in. -/
theorem sortM_stable {l : List α} (hcmp : ∀ a ∈ l, ∀ b ∈ l, cmp a b = .ok (order a b))
    (hl : l.Pairwise R) : ∃ r, sortM cmp l = .ok r ∧ r.Pairwise (Ahead order R) := by
  induction l with
  | nil => exact ⟨[], rfl, .nil⟩
  | cons a l ih =>
    obtain ⟨hfirst, hl⟩ := pairwise_cons.mp hl
    obtain ⟨l', hl', hsorted⟩ := ih (fun b hb c hc =>
      hcmp b (mem_cons_of_mem _ hb) c (mem_cons_of_mem _ hc)) hl
    have hmem : ∀ b ∈ l', b ∈ l := fun b hb => (sortM_perm hl').mem_iff.mp hb
    obtain ⟨r, hr, hsorted⟩ := insertM_stable
      (fun b hb => hcmp a mem_cons_self b (mem_cons_of_mem _ (hmem b hb)))
      (fun b hb => hfirst b (hmem b hb)) hsorted
    exact ⟨r, by rw [sortM, hl']; exact hr, hsorted⟩

end Stable

end UnionId.Lib
