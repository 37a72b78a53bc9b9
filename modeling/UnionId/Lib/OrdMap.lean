import Std.Data.ExtTreeMap
import UnionId.Lib.Fallible

/-!
# Values of an ordered map

The values of a tree map in key order, with what proofs need about them: which
values occur, and that a map whose values know their own keys lists each once.
-/
namespace UnionId.Lib

open Std (ExtTreeMap TransOrd LawfulEqOrd)

variable {κ ν : Type} [Ord κ] [TransOrd κ]

/-- The values of a map, in key order. -/
def valuesOf (m : ExtTreeMap κ ν) : List ν := m.toList.map Prod.snd

@[simp] theorem valuesOf_empty : valuesOf (∅ : ExtTreeMap κ ν) = [] := by
  simp [valuesOf]

variable [LawfulEqOrd κ] {m : ExtTreeMap κ ν} {v : ν}

@[simp] theorem mem_valuesOf : v ∈ valuesOf m ↔ ∃ k : κ, m[k]? = some v := by
  simp [valuesOf, ExtTreeMap.mem_toList_iff_getElem?_eq_some]

omit [LawfulEqOrd κ] in
theorem valuesOf_eq_nil : valuesOf m = [] ↔ m.isEmpty = true := by
  rw [valuesOf, List.map_eq_nil_iff, ExtTreeMap.toList_eq_nil_iff, ExtTreeMap.isEmpty_iff]

/-- The first value with a property is at no larger key than another one. -/
theorem le_of_find?_valuesOf {p : ν → Bool} {k₀ : κ} {v₀ : ν}
    (h : (valuesOf m).find? p = some v) (h₀ : m[k₀]? = some v₀) (hp : p v₀ = true) :
    ∃ k : κ, m[k]? = some v ∧ compare k k₀ ≠ .gt := by
  rw [valuesOf, List.find?_map, Option.map_eq_some_iff] at h
  obtain ⟨⟨k, w⟩, hfind, rfl⟩ := h
  obtain ⟨-, before, after, hsplit, hbefore⟩ := List.find?_eq_some_iff_append.mp hfind
  have hmem : (k₀, v₀) ∈ m.toList := ExtTreeMap.mem_toList_iff_getElem?_eq_some.mpr h₀
  refine ⟨k, ExtTreeMap.mem_toList_iff_getElem?_eq_some.mp (List.mem_of_find?_eq_some hfind), ?_⟩
  have hordered := ExtTreeMap.ordered_keys_toList (t := m)
  rw [hsplit] at hmem hordered
  obtain hmem | hmem := List.mem_append.mp hmem
  · simpa [hp] using hbefore _ hmem
  · obtain heq | hmem := List.mem_cons.mp hmem
    · cases heq
      rw [Std.ReflOrd.compare_self]
      simp
    · have hlt := (List.pairwise_cons.mp (List.pairwise_append.mp hordered).2.1).1 _ hmem
      rw [hlt]
      simp

/-- A map whose values carry their own keys has distinct keys among its values. -/
theorem nodup_map_valuesOf {f : ν → κ} (h : ∀ (k : κ) (v : ν), m[k]? = some v → f v = k) :
    ((valuesOf m).map f).Nodup := by
  have hkeys : (valuesOf m).map f = m.keys := by
    rw [valuesOf, ← ExtTreeMap.map_fst_toList_eq_keys, List.map_map]
    refine List.map_congr_left fun e he => ?_
    exact h e.1 e.2 (ExtTreeMap.mem_toList_iff_getElem?_eq_some.mp he)
  rw [hkeys]
  exact ExtTreeMap.nodup_keys

theorem getElem?_insert_of_notMem {k k' : κ} {v' : ν} (h : k ∉ m) :
    (m.insert k v)[k']? = some v' ↔ k = k' ∧ v = v' ∨ m[k']? = some v' := by
  rw [ExtTreeMap.getElem?_insert]
  by_cases hk : k = k'
  · subst hk
    simp [ExtTreeMap.getElem?_eq_none h]
  · rw [if_neg (by simpa using hk)]
    simp [hk]

theorem insert_eq_self {k : κ} (h : m[k]? = some v) : m.insert k v = m := by
  refine ExtTreeMap.ext_getElem? fun k' => ?_
  rw [ExtTreeMap.getElem?_insert]
  split
  · next heq => rw [← Std.LawfulEqOrd.eq_of_compare heq, h]
  · rfl

/-- Replacing values at distinct keys, one after the other, replaces each once. -/
theorem foldlM_insert {α ε : Type} {f : ExtTreeMap κ ν → κ × α → Except ε (ExtTreeMap κ ν)}
    {R : Option ν → α → ν → Prop}
    (step : ∀ (m : ExtTreeMap κ ν) e m', f m e = .ok m' → ∃ v, m' = m.insert e.1 v ∧
      R m[e.1]? e.2 v)
    {l : List (κ × α)} (hl : l.Pairwise fun a b => ¬compare a.1 b.1 = .eq)
    {m' : ExtTreeMap κ ν} (h : l.foldlM f m = Except.ok m') :
    (∀ k : κ, (∀ e ∈ l, e.1 ≠ k) → m'[k]? = m[k]?) ∧
      ∀ e ∈ l, ∃ v, m'[e.1]? = some v ∧ R m[e.1]? e.2 v := by
  induction l generalizing m with
  | nil =>
    obtain rfl : m = m' := by simpa using h
    simp
  | cons a l ih =>
    obtain ⟨hother, hl⟩ := List.pairwise_cons.mp hl
    obtain ⟨m₁, hm₁, h⟩ := bind_eq_ok.mp (by simpa [List.foldlM_cons] using h)
    obtain ⟨v, rfl, hv⟩ := step m a m₁ hm₁
    obtain ⟨hkept, hset⟩ := ih hl h
    have hne : ∀ e ∈ l, e.1 ≠ a.1 := fun e he heq =>
      hother e he (by rw [heq, Std.ReflOrd.compare_self])
    refine ⟨fun k hk => ?_, List.forall_mem_cons.mpr ⟨⟨v, ?_, hv⟩, fun e he => ?_⟩⟩
    · obtain ⟨hka, hk⟩ := List.forall_mem_cons.mp hk
      rw [hkept k hk, ExtTreeMap.getElem?_insert, if_neg (by simpa using hka)]
    · rw [hkept a.1 hne, ExtTreeMap.getElem?_insert, if_pos Std.ReflOrd.compare_self]
    · obtain ⟨w, hw, hR⟩ := hset e he
      rw [ExtTreeMap.getElem?_insert, if_neg (by simpa using (hne e he).symm)] at hR
      exact ⟨w, hw, hR⟩

@[simp] theorem getElem?_singleton {k k' : κ} {v' : ν} :
    ((∅ : ExtTreeMap κ ν).insert k v)[k']? = some v' ↔ k = k' ∧ v = v' := by
  rw [ExtTreeMap.getElem?_insert]
  by_cases h : k = k'
  · simp [h]
  · rw [if_neg (by simpa using h)]
    simp [h]

@[simp] theorem mem_valuesOf_singleton {k : κ} {v' : ν} :
    v' ∈ valuesOf ((∅ : ExtTreeMap κ ν).insert k v) ↔ v = v' := by
  simp

end UnionId.Lib
