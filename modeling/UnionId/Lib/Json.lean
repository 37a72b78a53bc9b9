import Mathlib.Order.Lattice.Nat
import Mathlib.Order.Lattice

/-!
# Nested documents

A JSON tree over arbitrary scalars and how deep it is nested.
-/
namespace UnionId.Lib

inductive Json (α : Type) where
  | scalar (a : α)
  | array (items : List (Json α))
  | object (members : List (String × Json α))

namespace Json
variable {α : Type}

mutual

/-- The number of arrays and objects around the innermost one. -/
def depth : Json α → ℕ
  | .scalar _ => 0
  | .array items => depthItems items + 1
  | .object members => depthMembers members + 1

def depthItems : List (Json α) → ℕ
  | [] => 0
  | item :: items => max item.depth (depthItems items)

def depthMembers : List (String × Json α) → ℕ
  | [] => 0
  | (_, item) :: members => max item.depth (depthMembers members)

end

@[simp] theorem depth_scalar (a : α) : (scalar a).depth = 0 := by rw [depth]
@[simp] theorem depth_array (items : List (Json α)) :
    (array items).depth = depthItems items + 1 := by rw [depth]
@[simp] theorem depth_object (members : List (String × Json α)) :
    (object members).depth = depthMembers members + 1 := by rw [depth]
@[simp] theorem depthItems_nil : depthItems ([] : List (Json α)) = 0 := by rw [depthItems]
@[simp] theorem depthItems_cons (item : Json α) (items : List (Json α)) :
    depthItems (item :: items) = max item.depth (depthItems items) := by rw [depthItems]
@[simp] theorem depthMembers_nil : depthMembers ([] : List (String × Json α)) = 0 := by
  rw [depthMembers]
@[simp] theorem depthMembers_cons (key : String) (item : Json α)
    (members : List (String × Json α)) :
    depthMembers ((key, item) :: members) = max item.depth (depthMembers members) := by
  rw [depthMembers]

@[simp] theorem depthMembers_append (ms ms' : List (String × Json α)) :
    depthMembers (ms ++ ms') = max (depthMembers ms) (depthMembers ms') := by
  induction ms with
  | nil => simp
  | cons m ms ih =>
    obtain ⟨key, item⟩ := m
    rw [List.cons_append, depthMembers_cons, depthMembers_cons, ih, max_assoc]

theorem depthItems_le_iff {items : List (Json α)} {n : ℕ} :
    depthItems items ≤ n ↔ ∀ item ∈ items, item.depth ≤ n := by
  induction items with
  | nil => simp
  | cons item items ih => rw [depthItems_cons, max_le_iff, ih, List.forall_mem_cons]

theorem depthMembers_le_iff {members : List (String × Json α)} {n : ℕ} :
    depthMembers members ≤ n ↔ ∀ m ∈ members, m.2.depth ≤ n := by
  induction members with
  | nil => simp
  | cons m members ih => rw [depthMembers_cons, max_le_iff, ih, List.forall_mem_cons]

end Json

end UnionId.Lib
