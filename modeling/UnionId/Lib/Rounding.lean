import Mathlib.Algebra.Order.Floor.Ring
import Mathlib.Algebra.Order.Round
import Mathlib.Data.Rat.Floor
import Mathlib.Tactic.Linarith
import Mathlib.Tactic.FieldSimp
import Mathlib.Tactic.Ring

/-!
# Rounding to integers

The roundings that treat both signs alike, next to the floor and the ceiling of an
ordered field. On a quotient of natural numbers each is decided by the remainder.
-/
namespace UnionId.Lib

section Field
variable {K : Type*} [Field K] [LinearOrder K] [IsStrictOrderedRing K] [FloorRing K]

/-- Toward zero. -/
def truncate (q : K) : ℤ := if 0 ≤ q then ⌊q⌋ else ⌈q⌉

/-- Away from zero. -/
def outward (q : K) : ℤ := if 0 ≤ q then ⌈q⌉ else ⌊q⌋

/-- To the nearest integer, ties away from zero. -/
def nearestAway (q : K) : ℤ := if 0 ≤ q then ⌊q + 1 / 2⌋ else ⌈q - 1 / 2⌉

/-- To the nearest integer, ties to the even one. -/
def nearestEven (q : K) : ℤ :=
  if Int.fract q < 1 / 2 then ⌊q⌋
  else if 1 / 2 < Int.fract q then ⌊q⌋ + 1
  else if Even ⌊q⌋ then ⌊q⌋ else ⌊q⌋ + 1

/-! ## Both signs -/

variable {q : K}

theorem truncate_neg (h : 0 < q) : truncate (-q) = -truncate q := by
  rw [truncate, truncate, if_neg (by simpa using h), if_pos h.le, Int.ceil_neg]

theorem outward_neg (h : 0 < q) : outward (-q) = -outward q := by
  rw [outward, outward, if_neg (by simpa using h), if_pos h.le, Int.floor_neg]

theorem nearestAway_neg (h : 0 < q) : nearestAway (-q) = -nearestAway q := by
  have hsum : -q - 1 / 2 = -(q + 1 / 2) := by ring
  rw [nearestAway, nearestAway, if_neg (by simpa using h), if_pos h.le, hsum, Int.ceil_neg]

theorem ceil_of_fract (h : Int.fract q ≠ 0) : ⌈q⌉ = ⌊q⌋ + 1 :=
  (Int.ceil_eq_floor_add_one_iff_notMem q).mpr fun hq => h (Int.fract_eq_zero_iff.mpr hq)

theorem floor_neg_of_fract (h : Int.fract q ≠ 0) : ⌊-q⌋ = -⌊q⌋ - 1 := by
  rw [Int.floor_neg, ceil_of_fract h]
  ring

theorem nearestEven_neg (h : Int.fract q ≠ 0) : nearestEven (-q) = -nearestEven q := by
  have hfloor := floor_neg_of_fract h
  have heven : Even (-⌊q⌋ - 1) ↔ ¬Even ⌊q⌋ := by
    rw [Int.even_sub_one, even_neg]
  unfold nearestEven
  rw [Int.fract_neg h, hfloor]
  rcases lt_trichotomy (Int.fract q) (1 / 2) with hlt | heq | hgt
  · rw [if_neg (by linarith), if_pos (by linarith), if_pos hlt]
    ring
  · rw [if_neg (by linarith), if_neg (by linarith), if_neg heq.not_lt, if_neg heq.not_gt]
    by_cases hq : Even ⌊q⌋
    · rw [if_neg (by simpa [heven] using hq), if_pos hq]
      ring
    · rw [if_pos (heven.mpr hq), if_neg hq]
      ring
  · rw [if_pos (by linarith), if_neg (by linarith), if_pos hgt]
    ring

/-! ## Quotients -/

section Quotient
variable {n d : ℕ}

theorem floor_natCast_div : ⌊(n : K) / d⌋ = (n / d : ℕ) := by
  rw [Int.floor_div_natCast, Int.floor_natCast]
  rfl

theorem fract_natCast_div : Int.fract ((n : K) / d) = (n % d : ℕ) / (d : K) :=
  Int.fract_div_natCast_eq_div_natCast_mod

theorem fract_natCast_div_ne_zero (hd : 0 < d) (h : n % d ≠ 0) : Int.fract ((n : K) / d) ≠ 0 := by
  rw [fract_natCast_div]
  exact div_ne_zero (Nat.cast_ne_zero.mpr h) (Nat.cast_ne_zero.mpr hd.ne')

theorem ceil_natCast_div (hd : 0 < d) (h : n % d ≠ 0) : ⌈(n : K) / d⌉ = (n / d : ℕ) + 1 := by
  rw [ceil_of_fract (fract_natCast_div_ne_zero hd h), floor_natCast_div]

theorem fract_lt_half (hd : 0 < d) : Int.fract ((n : K) / d) < 1 / 2 ↔ n % d * 2 < d := by
  have hpos : (0 : K) < d := Nat.cast_pos.mpr hd
  rw [fract_natCast_div, div_lt_div_iff₀ hpos two_pos, one_mul]
  exact_mod_cast Iff.rfl

theorem half_lt_fract (hd : 0 < d) : 1 / 2 < Int.fract ((n : K) / d) ↔ d < n % d * 2 := by
  have hpos : (0 : K) < d := Nat.cast_pos.mpr hd
  rw [fract_natCast_div, div_lt_div_iff₀ two_pos hpos, one_mul]
  exact_mod_cast Iff.rfl

theorem truncate_natCast_div : truncate ((n : K) / d) = (n / d : ℕ) := by
  rw [truncate, if_pos (by positivity), floor_natCast_div]

theorem outward_natCast_div (hd : 0 < d) (h : n % d ≠ 0) :
    outward ((n : K) / d) = (n / d : ℕ) + 1 := by
  rw [outward, if_pos (by positivity), ceil_natCast_div hd h]

theorem nearestAway_natCast_div (hd : 0 < d) :
    nearestAway ((n : K) / d) = (n / d : ℕ) + if n % d * 2 ≥ d then 1 else 0 := by
  have hsplit := Int.floor_add_fract ((n : K) / d)
  have hnonneg := Int.fract_nonneg ((n : K) / d)
  have hone := Int.fract_lt_one ((n : K) / d)
  have hhalf := fract_lt_half (K := K) (n := n) hd
  rw [nearestAway, if_pos (by positivity), Int.floor_eq_iff, ← floor_natCast_div (K := K)]
  split
  · next hge =>
    have hge := hhalf.not.mpr (not_lt.mpr hge)
    push_cast
    constructor <;> linarith
  · next hlt =>
    have hlt := hhalf.mpr (not_le.mp hlt)
    push_cast
    constructor <;> linarith

theorem nearestEven_natCast_div (hd : 0 < d) : nearestEven ((n : K) / d) = (n / d : ℕ) +
    if n % d * 2 > d ∨ n % d * 2 = d ∧ n / d % 2 ≠ 0 then 1 else 0 := by
  have heven : Even ((n / d : ℕ) : ℤ) ↔ n / d % 2 = 0 := by
    rw [Int.even_coe_nat, Nat.even_iff]
  simp only [nearestEven, fract_lt_half hd, half_lt_fract hd, floor_natCast_div, heven]
  split_ifs <;> omega

end Quotient

end Field

end UnionId.Lib
