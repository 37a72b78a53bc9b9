import Mathlib.Data.List.Perm.Subperm

/-!
# Linear histories

Elements name the key of their parent. A list is a lineage if the first element has no
parent and every later one has the element before it as its parent. A set of elements with
distinct keys has at most one lineage.
-/
namespace UnionId.Lib

open List

variable {α κ : Type} {key : α → κ} {parent : α → Option κ}

/-- Every parent is the element before; the first one is `before`. -/
def Linked (key : α → κ) (parent : α → Option κ) (before : Option κ) : List α → Prop
  | [] => True
  | a :: l => parent a = before ∧ Linked key parent (some (key a)) l

namespace Linked

variable {before : Option κ} {a b : α} {l r : List α}

/-- The parent of a later element is an element. -/
theorem parent_of_mem (h : Linked key parent before l) (ha : a ∈ l) :
    parent a = before ∨ ∃ b ∈ l, parent a = some (key b) := by
  induction l generalizing before with
  | nil => cases ha
  | cons c l ih =>
    obtain ⟨hc, hl⟩ := h
    obtain rfl | ha := mem_cons.mp ha
    · exact .inl hc
    · obtain hparent | ⟨b, hb, hparent⟩ := ih hl ha
      · exact .inr ⟨c, mem_cons_self, hparent⟩
      · exact .inr ⟨b, mem_cons_of_mem c hb, hparent⟩

/-- Only the first element comes after `before`. -/
theorem eq_head (h : Linked key parent before (a :: l))
    (hbefore : ∀ c ∈ a :: l, before ≠ some (key c))
    (hb : b ∈ a :: l) (hparent : parent b = before) : b = a := by
  obtain rfl | hb := mem_cons.mp hb
  · rfl
  · obtain heq | ⟨c, hc, heq⟩ := h.2.parent_of_mem hb
    · exact absurd (hparent.symm.trans heq) (hbefore a mem_cons_self)
    · exact absurd (hparent.symm.trans heq) (hbefore c (mem_cons_of_mem a hc))

/-- **One set, one lineage.** -/
theorem eq_of_perm (hl : Linked key parent before l) (hr : Linked key parent before r)
    (hperm : l.Perm r) (hkeys : (l.map key).Nodup) (hbefore : ∀ c ∈ l, before ≠ some (key c)) :
    l = r := by
  induction l generalizing before r with
  | nil => exact hperm.nil_eq
  | cons a l ih =>
    cases r with
    | nil => exact absurd hperm.eq_nil (by simp)
    | cons b r =>
      obtain rfl : b = a := hl.eq_head hbefore (hperm.mem_iff.mpr mem_cons_self) hr.1
      obtain ⟨hnew, hkeys⟩ := nodup_cons.mp hkeys
      rw [ih hl.2 hr.2 hperm.cons_inv hkeys fun c hc heq =>
        hnew (mem_map.mpr ⟨c, hc, (Option.some.inj heq).symm⟩)]

/-- The key that the next element has to name. -/
def tip (key : α → κ) (before : Option κ) : List α → Option κ
  | [] => before
  | a :: l => tip key (some (key a)) l

theorem tip_eq : tip key before l = ((l.getLast?).map key).or before := by
  induction l generalizing before with
  | nil => rfl
  | cons a l ih =>
    rw [tip, ih]
    cases l with
    | nil => rfl
    | cons b l => simp [getLast?_eq_some_getLast]

theorem append :
    Linked key parent before (l ++ r) ↔ Linked key parent before l ∧
      Linked key parent (tip key before l) r := by
  induction l generalizing before with
  | nil => simp [Linked, tip]
  | cons a l ih => simp [Linked, tip, ih, and_assoc]

/-- The parents are the keys, without the last one. -/
theorem parents (h : Linked key parent before l) :
    l.filterMap parent ++ (tip key before l).toList = before.toList ++ l.map key := by
  induction l generalizing before with
  | nil => simp [tip]
  | cons a l ih =>
    obtain ⟨rfl, hl⟩ := h
    have htail := ih hl
    cases ha : parent a <;> simp_all [tip]

/-- With distinct keys no parent is named twice. -/
theorem nodup_parents (h : Linked key parent none l) (hkeys : (l.map key).Nodup) :
    (l.filterMap parent).Nodup := by
  have hparents : l.filterMap parent ++ (tip key none l).toList = l.map key := h.parents
  rw [← hparents] at hkeys
  exact (nodup_append.mp hkeys).1

/-- The last element has no child. -/
theorem tip_notMem_parents (h : Linked key parent none l) (hkeys : (l.map key).Nodup) {k : κ}
    (hk : tip key none l = some k) : k ∉ l.filterMap parent := by
  have hparents : l.filterMap parent ++ (tip key none l).toList = l.map key := h.parents
  rw [← hparents, hk] at hkeys
  exact fun hmem => (nodup_append.mp hkeys).2.2 k hmem k (by simp) rfl

end Linked

end UnionId.Lib
