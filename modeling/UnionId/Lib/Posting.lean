import Mathlib.Data.Set.Basic
import Mathlib.Data.List.Sort
import Std.Data.ExtTreeMap

/-!
# Posting maps

A posting map sends a key to the list of identities that carry it. The abstract
reading is a set of key-identity entries; `Represents` says that a map is the
canonical form of such a set, with no empty list and every list strictly
ascending. Two maps that represent one set are equal, so an incrementally
maintained map can be compared with a rebuilt one through their sets.

## Main definitions

* `Posting.Valid` — no empty list, every list strictly ascending.
* `Posting.entries` — the set of entries.
* `Posting.Represents` — valid, with a given set of entries.
* `Posting.pushBack`, `Posting.insert`, `Posting.remove` — the updates.
* `Posting.scan` — the entries of a key range, by key in either direction, the
  identities of one key always ascending.
-/
namespace UnionId.Lib

open List

open Std (ExtTreeMap TransOrd LawfulEqOrd)

/-- Identities by key. -/
abbrev Posting (κ ι : Type) [Ord κ] := ExtTreeMap κ (List ι)

namespace Posting

variable {κ ι : Type} [Ord κ] [TransOrd κ] [LawfulEqOrd κ] [LinearOrder ι] {p q : Posting κ ι}
  {k : κ} {id : ι} {S : Set (κ × ι)}

/-- The identities under a key. -/
def idsAt (p : Posting κ ι) (k : κ) : List ι := p[k]?.getD []

/-- Add an identity after those already under the key. -/
def pushBack (p : Posting κ ι) (k : κ) (id : ι) : Posting κ ι :=
  ExtTreeMap.insert p k (p.idsAt k ++ [id])

/-- Add an identity at its place in the ascending order, unless it is there. -/
def insert (p : Posting κ ι) (k : κ) (id : ι) : Posting κ ι :=
  ExtTreeMap.insert p k
    (if id ∈ p.idsAt k then p.idsAt k else (p.idsAt k).orderedInsert (· ≤ ·) id)

/-- Remove an identity, and the key with its last identity. -/
def remove (p : Posting κ ι) (k : κ) (id : ι) : Posting κ ι :=
  match (p.idsAt k).erase id with
  | [] => p.erase k
  | ids => ExtTreeMap.insert p k ids

/-! ## The abstract reading -/

structure Valid (p : Posting κ ι) : Prop where
  nonempty : ∀ (k : κ) (ids : List ι), p[k]? = some ids → ids ≠ []
  ascending : ∀ k : κ, (p.idsAt k).Pairwise (· < ·)

def entries (p : Posting κ ι) : Set (κ × ι) := {e | e.2 ∈ p.idsAt e.1}

omit [LawfulEqOrd κ] [LinearOrder ι] in
@[simp] theorem mem_entries : (k, id) ∈ p.entries ↔ id ∈ p.idsAt k := Iff.rfl

/-- The map is the canonical form of a set of entries. -/
structure Represents (p : Posting κ ι) (S : Set (κ × ι)) : Prop where
  valid : p.Valid
  entries_eq : p.entries = S

omit [LawfulEqOrd κ] in
theorem Represents.mem_idsAt (h : p.Represents S) : id ∈ p.idsAt k ↔ (k, id) ∈ S := by
  rw [← h.entries_eq, mem_entries]

/-- **Canonicity.** A set of entries has one representation. -/
theorem Represents.unique (hp : p.Represents S) (hq : q.Represents S) : p = q := by
  have hids : ∀ k, p.idsAt k = q.idsAt k := by
    intro k
    refine (hp.valid.ascending k).eq_of_mem_iff (hq.valid.ascending k) fun id => ?_
    rw [hp.mem_idsAt, hq.mem_idsAt]
  refine ExtTreeMap.ext_getElem? fun k => ?_
  have hk := hids k
  unfold idsAt at hk
  cases hpk : p[k]? with
  | none =>
    cases hqk : q[k]? with
    | none => rfl
    | some ids =>
      rw [hpk, hqk] at hk
      exact absurd hk.symm (hq.valid.nonempty k ids hqk)
  | some ids =>
    cases hqk : q[k]? with
    | none =>
      rw [hpk, hqk] at hk
      exact absurd hk (hp.valid.nonempty k ids hpk)
    | some ids' => simpa [hpk, hqk] using hk

omit [LawfulEqOrd κ] in
theorem represents_empty : (∅ : Posting κ ι).Represents ∅ where
  valid := ⟨fun k ids h => by simp at h, fun k => by simp [idsAt]⟩
  entries_eq := by ext ⟨k, id⟩; simp [idsAt]

/-! ## Updates -/

omit [LawfulEqOrd κ] in
/-- A map that agrees with a represented one away from a single key. -/
private theorem Represents.of_agree {S' : Set (κ × ι)} (h : p.Represents S)
    (hne : ∀ ids, q[k]? = some ids → ids ≠ []) (hasc : (q.idsAt k).Pairwise (· < ·))
    (hmem : ∀ i, i ∈ q.idsAt k ↔ (k, i) ∈ S') (hq : ∀ k', k ≠ k' → q[k']? = p[k']?)
    (hS : ∀ k', k ≠ k' → ∀ i, (k', i) ∈ S' ↔ (k', i) ∈ S) : q.Represents S' := by
  have hids : ∀ k', k ≠ k' → q.idsAt k' = p.idsAt k' := fun k' hk => by simp only [idsAt, hq k' hk]
  refine ⟨⟨fun k' ids hk' => ?_, fun k' => ?_⟩, ?_⟩
  · by_cases hk : k = k'
    · exact hne ids (hk ▸ hk')
    · exact h.valid.nonempty k' ids (hq k' hk ▸ hk')
  · by_cases hk : k = k'
    · exact hk ▸ hasc
    · exact hids k' hk ▸ h.valid.ascending k'
  · ext ⟨k', i⟩
    by_cases hk : k = k'
    · exact hk ▸ hmem i
    · rw [mem_entries, hids k' hk, hS k' hk, h.mem_idsAt]

omit [LinearOrder ι] in
private theorem getElem?_put (p : Posting κ ι) (k : κ) (ids : List ι) :
    (ExtTreeMap.insert p k ids)[k]? = some ids := by simp

/-- Replacing the list under one key by a nonempty ascending list. -/
private theorem Represents.put {S' : Set (κ × ι)} {ids : List ι} (h : p.Represents S)
    (hasc : ids.Pairwise (· < ·)) (hne : ids ≠ []) (hmem : ∀ i, i ∈ ids ↔ (k, i) ∈ S')
    (hS : ∀ k', k ≠ k' → ∀ i, (k', i) ∈ S' ↔ (k', i) ∈ S) :
    Represents (ExtTreeMap.insert p k ids) S' := by
  have hids : idsAt (ExtTreeMap.insert p k ids) k = ids := by simp [idsAt]
  refine h.of_agree (k := k) (fun ids' h' => ?_) (hids.symm ▸ hasc) (hids.symm ▸ hmem) ?_ hS
  · rw [getElem?_put] at h'
    exact Option.some.inj h' ▸ hne
  · intro k' hk
    rw [ExtTreeMap.getElem?_insert, if_neg (by simpa using hk)]

/-- An identity above all those of its key goes to the end of the list. -/
theorem Represents.pushBack (h : p.Represents S) (habove : ∀ i, (k, i) ∈ S → i < id) :
    (p.pushBack k id).Represents (Insert.insert (k, id) S) := by
  refine h.put ?_ (by simp) (fun i => by simp [h.mem_idsAt, or_comm]) ?_
  · rw [pairwise_append]
    refine ⟨h.valid.ascending k, pairwise_singleton _ _, fun a ha b hb => ?_⟩
    rw [mem_singleton] at hb
    exact hb ▸ habove a (h.mem_idsAt.mp ha)
  · intro k' hk i
    simp [Ne.symm hk]

theorem Represents.insert (h : p.Represents S) :
    (p.insert k id).Represents (Insert.insert (k, id) S) := by
  have hS : ∀ k', k ≠ k' → ∀ i, (k', i) ∈ Insert.insert (k, id) S ↔ (k', i) ∈ S := by
    intro k' hk i
    simp [Ne.symm hk]
  unfold Posting.insert
  split
  · rename_i hid
    refine h.put (h.valid.ascending k) (ne_nil_of_mem hid) (fun i => ?_) hS
    rw [h.mem_idsAt, Set.insert_eq_of_mem (h.mem_idsAt.mp hid)]
  · rename_i hid
    have hne : (p.idsAt k).orderedInsert (· ≤ ·) id ≠ [] :=
      ne_nil_of_mem ((perm_orderedInsert _ id _).mem_iff.mpr mem_cons_self)
    refine h.put ?_ hne (fun i => by simp [h.mem_idsAt]) hS
    have hle : ((p.idsAt k).orderedInsert (· ≤ ·) id).Pairwise (· ≤ ·) :=
      ((h.valid.ascending k).imp LT.lt.le).orderedInsert id _
    have hnodup : ((p.idsAt k).orderedInsert (· ≤ ·) id).Nodup := by
      rw [(perm_orderedInsert _ id _).nodup_iff, nodup_cons]
      exact ⟨hid, (h.valid.ascending k).imp LT.lt.ne⟩
    exact (hle.and hnodup).imp fun hab => lt_of_le_of_ne hab.1 hab.2

theorem Represents.remove (h : p.Represents S) : (p.remove k id).Represents (S \ {(k, id)}) := by
  have hmem : ∀ i, i ∈ (p.idsAt k).erase id ↔ (k, i) ∈ S \ {(k, id)} := by
    intro i
    rw [List.Nodup.mem_erase_iff ((h.valid.ascending k).imp LT.lt.ne), h.mem_idsAt]
    simp [and_comm]
  have hS : ∀ k', k ≠ k' → ∀ i, (k', i) ∈ S \ {(k, id)} ↔ (k', i) ∈ S := by
    intro k' hk i
    simp [Ne.symm hk]
  unfold Posting.remove
  split
  · rename_i hnil
    have hnone : (ExtTreeMap.erase p k)[k]? = none := by simp
    have hids : idsAt (ExtTreeMap.erase p k) k = [] := by rw [idsAt, hnone]; rfl
    refine h.of_agree (k := k) (by simp) (by simp [hids]) ?_ ?_ hS
    · rw [hids, ← hnil]
      exact hmem
    · intro k' hk
      rw [ExtTreeMap.getElem?_erase, if_neg (by simpa using hk)]
  · rename_i hne
    exact h.put ((h.valid.ascending k).erase id) hne hmem hS

/-! ## Scans -/

/-- The entries of a key range, by key upwards or downwards. -/
def scan (p : Posting κ ι) (within : κ → Bool) (reverse : Bool) : List (κ × ι) :=
  let groups := p.toList.filter fun group => within group.1
  (if reverse then groups.reverse else groups).flatMap fun group =>
    group.2.map fun id => (group.1, id)

/-- One entry comes before another in a scan. -/
def Before (reverse : Bool) (a b : κ × ι) : Prop :=
  (if reverse then compare b.1 a.1 else compare a.1 b.1) = .lt ∨ a.1 = b.1 ∧ a.2 < b.2

omit [LinearOrder ι] in
theorem mem_scan {within : κ → Bool} {reverse : Bool} :
    (k, id) ∈ p.scan within reverse ↔ within k ∧ id ∈ p.idsAt k := by
  have hgroups : (k, id) ∈ p.scan within reverse ↔
      ∃ ids, within k ∧ (k, ids) ∈ p.toList ∧ id ∈ ids := by
    cases reverse <;> simp [scan, and_assoc, and_comm, and_left_comm]
  rw [hgroups]
  simp only [ExtTreeMap.mem_toList_iff_getElem?_eq_some, idsAt]
  cases p[k]? <;> simp

/-- **Scan order.** Keys follow the direction; identities of one key ascend. -/
theorem pairwise_scan (h : p.Valid) (within : κ → Bool) (reverse : Bool) :
    (p.scan within reverse).Pairwise (Before reverse) := by
  have hkeys : (p.toList.filter fun group => within group.1).Pairwise
      fun a b => compare a.1 b.1 = .lt := ExtTreeMap.ordered_keys_toList.filter _
  have hasc : ∀ group ∈ p.toList, group.2.Pairwise (· < ·) := by
    rintro ⟨k, ids⟩ hmem
    have hk := ExtTreeMap.mem_toList_iff_getElem?_eq_some.mp hmem
    simpa [idsAt, hk] using h.ascending k
  unfold scan
  rw [pairwise_flatMap]
  refine ⟨?_, ?_⟩
  · intro group hgroup
    rw [pairwise_map]
    have hmem : group ∈ p.toList := by
      cases reverse <;> simp at hgroup <;> exact hgroup.1
    exact (hasc group hmem).imp fun hab => .inr ⟨rfl, hab⟩
  · have hlt : (if reverse then (p.toList.filter fun group => within group.1).reverse
        else p.toList.filter fun group => within group.1).Pairwise fun a b =>
          (if reverse then compare b.1 a.1 else compare a.1 b.1) = .lt := by
      cases reverse
      · simpa using hkeys
      · simpa [pairwise_reverse] using hkeys
    refine hlt.imp fun hab => ?_
    simp only [mem_map]
    rintro _ ⟨_, _, rfl⟩ _ ⟨_, _, rfl⟩
    exact .inl hab

end Posting
end UnionId.Lib
