import Mathlib.Data.List.Basic
import UnionId.Lib.CodeOrder

/-!
# Ranges of byte strings

The strings that begin with a prefix form a range of the lexicographic order: it
starts at the prefix and ends before the successor of the prefix.
-/
namespace UnionId.Lib

open List

/-- The prefix without its trailing maximal bytes, incremented; `none` when nothing
lies above. -/
def prefixSuccessor : List UInt8 → Option (List UInt8)
  | [] => none
  | byte :: bytes =>
    match prefixSuccessor bytes with
    | some next => some (byte :: next)
    | none => if byte = 255 then none else some [byte + 1]

example : prefixSuccessor [1, 2, 255, 255] = some [1, 3] ∧ prefixSuccessor [255] = none := by
  decide

/-- Below a string, or beginning with it. -/
def BelowOrPrefix (k p : List UInt8) : Prop := compare k p = .lt ∨ p <+: k

theorem belowOrPrefix_nil_left (p : List UInt8) : BelowOrPrefix [] p := by
  cases p with
  | nil => exact .inr (prefix_refl _)
  | cons y p => exact .inl rfl

theorem belowOrPrefix_nil_right (k : List UInt8) : BelowOrPrefix k [] := .inr nil_prefix

variable {p : List UInt8}

theorem belowOrPrefix_cons {x y : UInt8} {k : List UInt8} :
    BelowOrPrefix (x :: k) (y :: p) ↔ compare x y = .lt ∨ x = y ∧ BelowOrPrefix k p := by
  unfold BelowOrPrefix
  rw [List.compare_cons_cons, cons_prefix_cons]
  cases hxy : compare x y with
  | lt => simp
  | eq =>
    obtain rfl := Std.LawfulEqOrd.eq_of_compare hxy
    simp
  | gt =>
    have hne : x ≠ y := by
      rintro rfl
      simp at hxy
    simp [hne, Ne.symm hne]

/-- Below the next byte means below the byte or equal to it. -/
theorem compare_lt_succ {x y : UInt8} (hy : y ≠ 255) :
    compare x (y + 1) = .lt ↔ compare x y = .lt ∨ x = y := by
  have hsucc : (y + 1).toNat = y.toNat + 1 := by
    have hlt := y.toNat_lt
    have hne : y.toNat ≠ 255 := fun h => hy (UInt8.toNat_inj.mp h)
    rw [UInt8.toNat_add, UInt8.toNat_one]
    omega
  rw [Std.compare_eq_lt, Std.compare_eq_lt, UInt8.lt_iff_toNat_lt, UInt8.lt_iff_toNat_lt, hsucc,
    ← UInt8.toNat_inj]
  omega

theorem le_max_byte (x : UInt8) : compare x 255 = .lt ∨ x = 255 := by
  rw [Std.compare_eq_lt, UInt8.lt_iff_toNat_lt, ← UInt8.toNat_inj]
  have := x.toNat_lt
  change x.toNat < 255 ∨ x.toNat = 255
  omega

theorem compare_nil_lt_prefixSuccessor {s : List UInt8} (h : prefixSuccessor p = some s) :
    compare [] s = .lt := by
  cases p with
  | nil => cases h
  | cons y p =>
    rw [prefixSuccessor] at h
    split at h
    · cases h
      rfl
    · split at h <;> cases h
      rfl

/-- **The strings below the successor of a prefix** are those below the prefix and
those that begin with it; without a successor, these are all strings. -/
theorem prefixSuccessor_spec (p k : List UInt8) :
    (∀ s, prefixSuccessor p = some s → (compare k s = .lt ↔ BelowOrPrefix k p)) ∧
      (prefixSuccessor p = none → BelowOrPrefix k p) := by
  induction p generalizing k with
  | nil => exact ⟨fun s h => (by cases h), fun _ => belowOrPrefix_nil_right k⟩
  | cons y p ih =>
    cases k with
    | nil =>
      refine ⟨fun s h => ?_, fun _ => belowOrPrefix_nil_left _⟩
      simp [compare_nil_lt_prefixSuccessor h, belowOrPrefix_nil_left]
    | cons x k =>
      rw [belowOrPrefix_cons, prefixSuccessor]
      cases hp : prefixSuccessor p with
      | some next =>
        refine ⟨fun s h => ?_, by simp⟩
        obtain rfl : y :: next = s := by simpa using h
        rw [List.compare_cons_cons, ← (ih k).1 next hp]
        cases hxy : compare x y with
        | lt => simp
        | eq => simp [Std.LawfulEqOrd.eq_of_compare hxy]
        | gt =>
          have hne : x ≠ y := by
            rintro rfl
            simp at hxy
          simp [hne]
      | none =>
        have hk : BelowOrPrefix k p := (ih k).2 hp
        by_cases hy : y = 255
        · subst hy
          refine ⟨by simp, fun _ => ?_⟩
          exact (le_max_byte x).imp id fun h => ⟨h, hk⟩
        · refine ⟨fun s h => ?_, by simp [hy]⟩
          obtain rfl : [y + 1] = s := by simpa [hy] using h
          rw [List.compare_cons_cons]
          have hlast : (compare x (y + 1)).then (compare k []) = .lt ↔ compare x (y + 1) = .lt := by
            cases compare x (y + 1) <;> cases k <;> simp
          rw [hlast, compare_lt_succ hy]
          exact or_congr_right ⟨fun h => ⟨h, hk⟩, fun h => h.1⟩

/-- Between two strings that begin with a word, every string begins with it. -/
theorem prefix_of_between {x y k : List UInt8} (hlow : compare (p ++ x) k ≠ .gt)
    (hhigh : compare k (p ++ y) ≠ .gt) : p <+: k := by
  induction p generalizing k with
  | nil => exact nil_prefix
  | cons a p ih =>
    cases k with
    | nil => exact absurd rfl hlow
    | cons b k =>
      rw [cons_append, List.compare_cons_cons] at hlow hhigh
      have hab : compare a b = .eq := by
        rw [Std.OrientedOrd.eq_swap (a := b) (b := a)] at hhigh
        cases hab : compare a b <;> simp_all
      obtain rfl := Std.LawfulEqOrd.eq_of_compare hab
      rw [hab, Ordering.eq_then] at hlow hhigh
      exact cons_prefix_cons.mpr ⟨rfl, ih hlow hhigh⟩

/-! ## Decided words -/

section
variable {w b rest : List UInt8} {o : Ordering}

/-- A string begins with a limit when its leading word is the limit. -/
theorem prefix_append_iff (h : codeCompare w b = some o) (rest : List UInt8) :
    b <+: w ++ rest ↔ o = .eq := by
  constructor
  · intro hprefix
    have hcomparable : w <+: b ∨ b <+: w :=
      prefix_or_prefix_of_prefix (prefix_append w rest) hprefix
    obtain rfl := eq_of_isPrefix_of_codeCompare h hcomparable
    rw [codeCompare_self] at h
    exact (Option.some.inj h).symm
  · rintro rfl
    have hwb : w = b := Std.LawfulEqOrd.eq_of_compare (compare_of_codeCompare h)
    exact hwb ▸ prefix_append w rest

end

end UnionId.Lib
