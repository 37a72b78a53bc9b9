import UnionId.Lib.OrdMap

/-!
# Grouping

Elements arrive one at a time, and a map keeps for every key a state of the elements
with that key. After all elements the map describes the classes of elements with equal
keys.
-/
namespace UnionId.Lib

open Std List

variable {α κ σ : Type} [DecidableEq κ]

/-- The elements with one key, in their order. -/
def fiber (key : α → Option κ) (l : List α) (k : κ) : List α := l.filter fun a => key a = some k

theorem mem_fiber {key : α → Option κ} {l : List α} {a : α} {k : κ} :
    a ∈ fiber key l k ↔ a ∈ l ∧ key a = some k := by
  simp [fiber]

variable [Ord κ] [TransOrd κ]

/-- Every key of the elements, and of the map at the start, has a state that represents
the elements with the key. -/
structure Grouped (key : α → Option κ) (start : ExtTreeMap κ σ) (Rep : κ → List α → σ → Prop)
    (l : List α) (m : ExtTreeMap κ σ) : Prop where
  mem_iff : ∀ k, k ∈ m ↔ k ∈ start ∨ ∃ a ∈ l, key a = some k
  rep : ∀ (k : κ) (s : σ), m[k]? = some s → Rep k (fiber key l k) s

namespace Grouped

variable {key : α → Option κ} {start m : ExtTreeMap κ σ} {Rep : κ → List α → σ → Prop} {l : List α}

theorem init (h : ∀ (k : κ) (s : σ), start[k]? = some s → Rep k [] s) :
    Grouped key start Rep [] start :=
  ⟨fun k => by simp, h⟩

/-- A key without a state has no elements. -/
theorem fiber_eq_nil (h : Grouped key start Rep l m) {k : κ} (hk : m[k]? = none) :
    fiber key l k = [] := by
  by_contra hne
  obtain ⟨a, ha⟩ := exists_mem_of_ne_nil _ hne
  have hmem : k ∈ m := (h.mem_iff k).mpr (.inr ⟨a, mem_fiber.mp ha⟩)
  rw [ExtTreeMap.mem_iff_isSome_getElem?, hk] at hmem
  cases hmem

variable [LawfulEqOrd κ]

/-- One more element replaces the state of its group. -/
theorem insert (h : Grouped key start Rep l m) {a : α} {k : κ} (ha : key a = some k) {s : σ}
    (hs : Rep k (fiber key l k ++ [a]) s) : Grouped key start Rep (l ++ [a]) (m.insert k s) := by
  constructor
  · intro k'
    rw [ExtTreeMap.mem_insert, Std.compare_eq_iff_eq, h.mem_iff]
    constructor
    · rintro (rfl | hstart | ⟨b, hb, hkey⟩)
      · exact .inr ⟨a, by simp, ha⟩
      · exact .inl hstart
      · exact .inr ⟨b, by simp [hb], hkey⟩
    · rintro (hstart | ⟨b, hb, hkey⟩)
      · exact .inr (.inl hstart)
      · obtain hb | hb := mem_append.mp hb
        · exact .inr (.inr ⟨b, hb, hkey⟩)
        · obtain rfl := mem_singleton.mp hb
          exact .inl (Option.some.inj (ha.symm.trans hkey))
  · intro k' s' hs'
    simp only [ExtTreeMap.getElem?_insert, Std.compare_eq_iff_eq] at hs'
    by_cases hk : k = k'
    · subst hk
      rw [if_pos rfl] at hs'
      obtain rfl := Option.some.inj hs'
      simpa [fiber, ha] using hs
    · rw [if_neg hk] at hs'
      simpa [fiber, ha, hk] using h.rep k' s' hs'

end Grouped

end UnionId.Lib
