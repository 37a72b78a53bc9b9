import Mathlib.Data.List.Sort
import Mathlib.Order.Compare

/-!
# Sorted association lists

Finite maps as key-value lists with strictly ascending keys. They serve where a
map sits inside a nested inductive type; lookup is `List.lookup`.
-/
namespace UnionId.Lib

open List

variable {κ ν : Type*} [LinearOrder κ]

/-- Insert a binding, or replace the one with the same key. -/
def assocInsert (k : κ) (v : ν) : List (κ × ν) → List (κ × ν)
  | [] => [(k, v)]
  | (k', v') :: rest =>
    if k < k' then (k, v) :: (k', v') :: rest
    else if k = k' then (k, v) :: rest
    else (k', v') :: assocInsert k v rest

/-- The keys of a list are strictly ascending. -/
def KeysSorted (l : List (κ × ν)) : Prop := l.Pairwise fun a b => a.1 < b.1

@[simp] theorem keysSorted_nil : KeysSorted ([] : List (κ × ν)) := List.Pairwise.nil

variable {k : κ} {v : ν} {l l₁ l₂ : List (κ × ν)}

theorem mem_assocInsert {p : κ × ν} (h : p ∈ assocInsert k v l) : p = (k, v) ∨ p ∈ l := by
  induction l with
  | nil => simp_all [assocInsert]
  | cons q l ih =>
    simp only [assocInsert] at h
    split at h
    · exact mem_cons.mp h
    · split at h
      · exact (mem_cons.mp h).imp_right (mem_cons_of_mem _)
      · rcases mem_cons.mp h with rfl | h
        · exact .inr (mem_cons_self ..)
        · exact (ih h).imp_right (mem_cons_of_mem _)

theorem length_assocInsert_le (k : κ) (v : ν) (l : List (κ × ν)) :
    (assocInsert k v l).length ≤ l.length + 1 := by
  induction l with
  | nil => simp [assocInsert]
  | cons q l ih =>
    simp only [assocInsert]
    split
    · simp
    · split
      · simp
      · simpa using ih

/-- A key above all others goes to the end. -/
theorem assocInsert_of_last (h : ∀ p ∈ l, p.1 < k) : assocInsert k v l = l ++ [(k, v)] := by
  induction l with
  | nil => rfl
  | cons q l ih =>
    obtain ⟨hq, hl⟩ := forall_mem_cons.mp h
    rw [assocInsert, if_neg hq.not_gt, if_neg hq.ne', ih hl]
    rfl

theorem keysSorted_assocInsert (k : κ) (v : ν) (h : KeysSorted l) :
    KeysSorted (assocInsert k v l) := by
  induction l with
  | nil => simp [assocInsert, KeysSorted]
  | cons q l ih =>
    obtain ⟨k', v'⟩ := q
    obtain ⟨hall, hl⟩ := pairwise_cons.mp h
    simp only [assocInsert]
    split
    · rename_i hlt
      refine pairwise_cons.mpr ⟨fun p hp => ?_, h⟩
      rcases mem_cons.mp hp with rfl | hp
      · exact hlt
      · exact hlt.trans (hall p hp)
    · rename_i hnlt
      split
      · rename_i heq
        subst heq
        exact pairwise_cons.mpr ⟨hall, hl⟩
      · rename_i hne
        refine pairwise_cons.mpr ⟨fun p hp => ?_, ih hl⟩
        rcases mem_assocInsert hp with rfl | hp
        · exact lt_of_le_of_ne (not_lt.mp hnlt) (Ne.symm hne)
        · exact hall p hp

theorem lookup_cons_eq (k : κ) (p : κ × ν) (l : List (κ × ν)) :
    (p :: l).lookup k = if k = p.1 then some p.2 else l.lookup k := by
  rw [lookup_cons]
  by_cases h : k = p.1
  · simp [h]
  · simp [h, beq_eq_false_iff_ne.mpr h]

@[simp] theorem lookup_assocInsert (k : κ) (v : ν) (l : List (κ × ν)) (k' : κ) :
    (assocInsert k v l).lookup k' = if k' = k then some v else l.lookup k' := by
  induction l with
  | nil => simp [assocInsert, lookup_cons_eq]
  | cons q l ih =>
    simp only [assocInsert]
    split
    · simp only [lookup_cons_eq]
    · split
      · simp only [lookup_cons_eq]
        split <;> simp_all
      · rename_i hne
        simp only [lookup_cons_eq, ih]
        by_cases hk : k' = q.1
        · have hkk : k' ≠ k := fun h => hne (h.symm.trans hk)
          rw [if_pos hk, if_neg hkk, if_pos hk]
        · simp [hk]

theorem mem_of_lookup (h : l.lookup k = some v) : (k, v) ∈ l := by
  obtain ⟨l₁, l₂, rfl, -⟩ := lookup_eq_some_iff.mp h
  simp

/-- Where no key occurs twice, lookup finds every binding. -/
theorem lookup_eq_some_iff_mem {κ ν : Type*} [BEq κ] [LawfulBEq κ] {l : List (κ × ν)}
    (h : (l.map Prod.fst).Nodup) {k : κ} {v : ν} : l.lookup k = some v ↔ (k, v) ∈ l := by
  rw [lookup_eq_some_iff]
  constructor
  · rintro ⟨l₁, l₂, rfl, -⟩
    simp
  · intro hmem
    obtain ⟨l₁, l₂, rfl⟩ := append_of_mem hmem
    rw [map_append, nodup_append] at h
    refine ⟨l₁, l₂, rfl, fun q hq => bne_iff_ne.mpr (Ne.symm ?_)⟩
    exact h.2.2 q.1 (mem_map_of_mem hq) k (by simp)

theorem KeysSorted.nodup_keys (h : KeysSorted l) : (l.map Prod.fst).Nodup :=
  pairwise_map.mpr (h.imp ne_of_lt)

theorem lookup_of_mem (hs : KeysSorted l) (h : (k, v) ∈ l) : l.lookup k = some v :=
  (lookup_eq_some_iff_mem hs.nodup_keys).mpr h

theorem KeysSorted.nodup (h : KeysSorted l) : l.Nodup :=
  h.nodup_keys.of_map Prod.fst

/-- Sorted lists with the same bindings are equal. -/
theorem KeysSorted.eq_of_perm (h₁ : KeysSorted l₁) (h₂ : KeysSorted l₂)
    (h : l₁.Perm l₂) : l₁ = l₂ :=
  List.Perm.eq_of_pairwise (fun _ _ _ _ hab hba => absurd (hab.trans hba) (lt_irrefl _))
    (show l₁.Pairwise fun a b => a.1 < b.1 from h₁) h₂ h

theorem KeysSorted.ext (h₁ : KeysSorted l₁) (h₂ : KeysSorted l₂)
    (h : ∀ p, p ∈ l₁ ↔ p ∈ l₂) : l₁ = l₂ :=
  h₁.eq_of_perm h₂ ((perm_ext_iff_of_nodup h₁.nodup h₂.nodup).mpr h)

theorem eq_of_lookup_eq (h₁ : KeysSorted l₁) (h₂ : KeysSorted l₂)
    (h : ∀ k, l₁.lookup k = l₂.lookup k) : l₁ = l₂ := by
  refine h₁.ext h₂ fun p => ?_
  rw [← lookup_eq_some_iff_mem h₁.nodup_keys, ← lookup_eq_some_iff_mem h₂.nodup_keys, h]

/-- Bindings contained in no more bindings are all of them. -/
theorem KeysSorted.eq_of_subset (h₁ : KeysSorted l₁) (h₂ : KeysSorted l₂)
    (hsub : l₁ ⊆ l₂) (hlen : l₂.length ≤ l₁.length) : l₁ = l₂ :=
  h₁.eq_of_perm h₂ ((subperm_of_subset h₁.nodup hsub).perm_of_length_le hlen)

/-- Inserting a binding for a new key adds one binding. -/
theorem assocInsert_perm (v : ν)
    (h : l.lookup k = none) : (assocInsert k v l).Perm ((k, v) :: l) := by
  induction l with
  | nil => exact .refl _
  | cons p l ih =>
    obtain ⟨k', v'⟩ := p
    rw [lookup_cons_eq] at h
    have hne : k ≠ k' := by
      rintro rfl
      simp at h
    rw [if_neg hne] at h
    by_cases hlt : k < k'
    · simp [assocInsert, hlt]
    · simp only [assocInsert, hlt, hne, if_false]
      exact ((ih h).cons _).trans (.swap _ _ _)

/-- Searching by a key that names elements uniquely. -/
theorem find?_key_eq_some {α ι : Type} [DecidableEq ι] {key : α → ι} {l : List α}
    (hn : (l.map key).Nodup) {k : ι} {a : α} :
    l.find? (fun x => key x = k) = some a ↔ a ∈ l ∧ key a = k := by
  constructor
  · intro h
    exact ⟨mem_of_find?_eq_some h, by simpa using find?_some h⟩
  · rintro ⟨hmem, hk⟩
    obtain ⟨b, hb⟩ := Option.isSome_iff_exists.mp
      (find?_isSome.mpr ⟨a, hmem, by simpa using hk⟩ :
        (l.find? fun x => key x = k).isSome)
    have hkb : key b = k := by simpa using find?_some hb
    rw [hb, inj_on_of_nodup_map hn (mem_of_find?_eq_some hb) hmem (hkb.trans hk.symm)]

end UnionId.Lib
