import UnionId.Lib.CodeOrder
import Mathlib.Data.Nat.Basic
import Mathlib.Tactic.Positivity
import Mathlib.Tactic.Ring

/-!
# Fixed-width big-endian numbers

Big-endian words of one width compare like the numbers they hold. Signed machine
integers are brought into that form by flipping their sign bit.
-/
namespace UnionId.Lib

/-- The `n` bytes of `x`, most significant first. -/
def beBytes : ℕ → ℕ → List UInt8
  | 0, _ => []
  | n + 1, x => UInt8.ofNat (x / 256 ^ n) :: beBytes n (x % 256 ^ n)

@[simp] theorem length_beBytes (n x : ℕ) : (beBytes n x).length = n := by
  induction n generalizing x with
  | zero => rfl
  | succ n ih => simp [beBytes, ih]

theorem compare_uint8_ofNat {a b : ℕ} (ha : a < 256) (hb : b < 256) :
    compare (UInt8.ofNat a) (UInt8.ofNat b) = compare a b := by
  have hlt : UInt8.ofNat a < UInt8.ofNat b ↔ a < b := by
    rw [UInt8.lt_iff_toNat_lt, UInt8.toNat_ofNat_of_lt' ha, UInt8.toNat_ofNat_of_lt' hb]
  have heq : UInt8.ofNat a = UInt8.ofNat b ↔ a = b := by
    rw [← UInt8.toNat_inj, UInt8.toNat_ofNat_of_lt' ha, UInt8.toNat_ofNat_of_lt' hb]
  change compareOfLessAndEq _ _ = compareOfLessAndEq _ _
  simp only [compareOfLessAndEq, hlt, heq]

private theorem compare_div_mod (m a b : ℕ) :
    compare a b = (compare (a / m) (b / m)).then (compare (a % m) (b % m)) := by
  have ha := Nat.div_add_mod a m
  have hb := Nat.div_add_mod b m
  rcases Nat.eq_zero_or_pos m with rfl | hm
  · simp
  have hla := Nat.mod_lt a hm
  have hlb := Nat.mod_lt b hm
  rcases lt_trichotomy (a / m) (b / m) with h | h | h
  · have : a < b := by
      by_contra hle
      exact absurd (Nat.div_le_div_right (c := m) (not_lt.mp hle)) (not_le.mpr h)
    rw [compare_lt_iff_lt.mpr h, compare_lt_iff_lt.mpr this]; rfl
  · rw [compare_eq_iff_eq.mpr h]
    rcases lt_trichotomy (a % m) (b % m) with h' | h' | h'
    · rw [compare_lt_iff_lt.mpr h', compare_lt_iff_lt.mpr (by rw [← ha, ← hb, h]; omega)]; rfl
    · rw [compare_eq_iff_eq.mpr h', compare_eq_iff_eq.mpr (by rw [← ha, ← hb, h, h'])]; rfl
    · rw [compare_gt_iff_gt.mpr h', compare_gt_iff_gt.mpr (by rw [← ha, ← hb, h]; omega)]; rfl
  · have : b < a := by
      by_contra hle
      exact absurd (Nat.div_le_div_right (c := m) (not_lt.mp hle)) (not_le.mpr h)
    rw [compare_gt_iff_gt.mpr h, compare_gt_iff_gt.mpr this]; rfl

variable {n x : ℕ}

/-- Big-endian words compare like the numbers that fit in them. -/
theorem compare_beBytes {y : ℕ} (hx : x < 256 ^ n) (hy : y < 256 ^ n) :
    compare (beBytes n x) (beBytes n y) = compare x y := by
  induction n generalizing x y with
  | zero =>
    obtain rfl : x = 0 := by simpa using hx
    obtain rfl : y = 0 := by simpa using hy
    rfl
  | succ n ih =>
    have hpos : 0 < 256 ^ n := by positivity
    have hdiv : ∀ z, z < 256 ^ (n + 1) → z / 256 ^ n < 256 := by
      intro z hz
      rw [Nat.div_lt_iff_lt_mul hpos]
      rwa [pow_succ, mul_comm] at hz
    rw [beBytes, beBytes, List.compare_cons_cons, compare_uint8_ofNat (hdiv x hx) (hdiv y hy),
      ih (Nat.mod_lt x hpos) (Nat.mod_lt y hpos), ← compare_div_mod]

/-- Two fixed-width words are decided by the order of their numbers. -/
theorem codeCompare_beBytes {y : ℕ} (hx : x < 256 ^ n) (hy : y < 256 ^ n) :
    codeCompare (beBytes n x) (beBytes n y) = some (compare x y) := by
  rw [codeCompare_of_length_eq (by simp), compare_beBytes hx hy]

/-- The number that big-endian bytes hold. -/
def beNat : List UInt8 → ℕ
  | [] => 0
  | b :: bs => b.toNat * 256 ^ bs.length + beNat bs

theorem beNat_lt (bs : List UInt8) : beNat bs < 256 ^ bs.length := by
  induction bs with
  | nil => simp [beNat]
  | cons b bs ih =>
    have hb : b.toNat < 256 := b.toNat_lt
    rw [beNat, List.length_cons, pow_succ, mul_comm _ 256]
    calc b.toNat * 256 ^ bs.length + beNat bs
        < b.toNat * 256 ^ bs.length + 256 ^ bs.length := by omega
      _ = (b.toNat + 1) * 256 ^ bs.length := by ring
      _ ≤ 256 * 256 ^ bs.length := Nat.mul_le_mul_right _ hb

theorem beNat_beBytes (hx : x < 256 ^ n) : beNat (beBytes n x) = x := by
  induction n generalizing x with
  | zero =>
    obtain rfl : x = 0 := by simpa using hx
    rfl
  | succ n ih =>
    have hpos : 0 < 256 ^ n := by positivity
    have hdiv : x / 256 ^ n < 256 := by
      rw [Nat.div_lt_iff_lt_mul hpos]
      rwa [pow_succ, mul_comm] at hx
    rw [beBytes, beNat, length_beBytes, ih (Nat.mod_lt x hpos), UInt8.toNat_ofNat_of_lt' hdiv,
      mul_comm, Nat.div_add_mod]

theorem beBytes_beNat (bs : List UInt8) : beBytes bs.length (beNat bs) = bs := by
  induction bs with
  | nil => rfl
  | cons b bs ih =>
    have hpos : 0 < 256 ^ bs.length := by positivity
    have hlt := beNat_lt bs
    rw [beNat, List.length_cons, beBytes, mul_comm, Nat.mul_add_div hpos, Nat.div_eq_of_lt hlt,
      Nat.mul_add_mod, Nat.mod_eq_of_lt hlt, ih, Nat.add_zero, UInt8.ofNat_toNat]

/-- Flipping bit `n` of an `n + 1`-bit number moves it by half the range. -/
theorem xor_two_pow (hx : x < 2 ^ (n + 1)) :
    x ^^^ 2 ^ n = if x < 2 ^ n then x + 2 ^ n else x - 2 ^ n := by
  have hdiv : (x ^^^ 2 ^ n) / 2 ^ n = x / 2 ^ n ^^^ 1 := by
    rw [Nat.xor_div_two_pow, Nat.div_self (Nat.two_pow_pos n)]
  have hmod : (x ^^^ 2 ^ n) % 2 ^ n = x % 2 ^ n := by
    rw [Nat.xor_mod_two_pow, Nat.mod_self, Nat.xor_zero]
  have hy := Nat.div_add_mod (x ^^^ 2 ^ n) (2 ^ n)
  rw [hdiv, hmod] at hy
  rw [pow_succ] at hx
  split
  · rename_i h
    rw [Nat.div_eq_of_lt h, Nat.mod_eq_of_lt h] at hy
    simp at hy; omega
  · rename_i h
    have hq : x / 2 ^ n = 1 := Nat.div_eq_of_lt_le (by omega) (by omega)
    have hm := Nat.div_add_mod x (2 ^ n)
    rw [hq] at hy hm
    simp at hy; omega

/-- The two's complement pattern of `z` in `n + 1` bits, with the sign bit
flipped. -/
def biased (n : ℕ) (z : ℤ) : ℕ := (BitVec.ofInt (n + 1) z ^^^ BitVec.twoPow (n + 1) n).toNat

theorem biased_lt (n : ℕ) (z : ℤ) : biased n z < 2 ^ (n + 1) := BitVec.isLt _

/-- Flipping the sign bit adds half the range. -/
theorem biased_eq {z : ℤ} (hlo : -2 ^ n ≤ z) (hhi : z < 2 ^ n) : (biased n z : ℤ) = z + 2 ^ n := by
  have hpow : (2 : ℤ) ^ (n + 1) = 2 ^ n + 2 ^ n := by ring
  have hpown : (2 : ℕ) ^ (n + 1) = 2 ^ n + 2 ^ n := by ring
  have hcast : ((2 ^ n : ℕ) : ℤ) = 2 ^ n := by push_cast; rfl
  rw [biased, BitVec.toNat_xor, BitVec.toNat_twoPow,
    Nat.mod_eq_of_lt (Nat.pow_lt_pow_right (by omega) (by omega)), xor_two_pow (BitVec.isLt _)]
  have ht : ((BitVec.ofInt (n + 1) z).toNat : ℤ) = if 0 ≤ z then z else z + 2 ^ (n + 1) := by
    rw [BitVec.toNat_ofInt]
    split
    · rw [Int.emod_eq_of_lt (by omega) (by push_cast; omega)]; omega
    · rw [← Int.add_emod_right, Int.emod_eq_of_lt (by push_cast; omega) (by push_cast; omega)]
      push_cast; omega
  split <;> split at ht <;> omega

/-- Signed numbers in range compare like their biased patterns. -/
theorem compare_biased {y z : ℤ} (hy : -2 ^ n ≤ y ∧ y < 2 ^ n)
    (hz : -2 ^ n ≤ z ∧ z < 2 ^ n) : compare (biased n y) (biased n z) = compare y z := by
  have h₁ := biased_eq hy.1 hy.2
  have h₂ := biased_eq hz.1 hz.2
  rcases lt_trichotomy y z with h | h | h
  · rw [compare_lt_iff_lt.mpr h, compare_lt_iff_lt]; omega
  · rw [compare_eq_iff_eq.mpr h, compare_eq_iff_eq]; omega
  · rw [compare_gt_iff_gt.mpr h, compare_gt_iff_gt]; omega

end UnionId.Lib
