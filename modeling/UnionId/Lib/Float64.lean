import UnionId.Lib.BigEndian

/-!
# IEEE doubles as bit patterns

A double is its 64-bit pattern: one sign bit, eleven exponent bits, 52 fraction
bits. The finite patterns are ordered by their signed magnitude, which identifies
the two zeros. Flipping the sign bit of the non-negative patterns and every bit of
the negative ones turns that order into the unsigned order of the patterns.
-/
namespace UnionId.Lib.Float64

/-- The exponent field is not all ones. -/
def isFinite (bits : UInt64) : Bool := (bits.toNat / 2 ^ 52) % 2 ^ 11 ≠ 2 ^ 11 - 1

/-- Either of the two zero patterns. -/
def isZero (bits : UInt64) : Bool := bits.toNat % 2 ^ 63 = 0

/-- The two zeros share the positive pattern. -/
def normalizeZero (bits : UInt64) : UInt64 := if isZero bits then 0 else bits

/-- The sign applied to the remaining 63 bits. -/
def signedMagnitude (bits : UInt64) : ℤ :=
  if bits.toNat < 2 ^ 63 then bits.toNat else 2 ^ 63 - (bits.toNat : ℤ)

/-- The order of two finite doubles. -/
def cmp (left right : UInt64) : Ordering := compare (signedMagnitude left) (signedMagnitude right)

/-- An all-ones exponent with a nonzero fraction. -/
def isNaN (bits : UInt64) : Bool := !isFinite bits && bits.toNat % 2 ^ 52 ≠ 0

/-- Numeric equality; NaN equals nothing. -/
def numEq (left right : UInt64) : Bool :=
  !isNaN left && !isNaN right && signedMagnitude left = signedMagnitude right

/-- The pattern whose unsigned order is the numeric order. -/
def ordered (bits : UInt64) : UInt64 :=
  if bits.toNat < 2 ^ 63 then bits ^^^ ((1 : UInt64) <<< 63) else ~~~bits

/-- The pattern of an integer, when a double holds it exactly. -/
def ofIntExact? (z : ℤ) : Option UInt64 :=
  if z = 0 then some 0
  else
    let magnitude := z.natAbs
    let exponent := magnitude.log2
    let sign := if z < 0 then 2 ^ 63 else 0
    let pattern (significand : ℕ) : UInt64 :=
      UInt64.ofNat (sign + (exponent + 1023) * 2 ^ 52 + (significand - 2 ^ 52))
    if exponent ≤ 52 then some (pattern (magnitude * 2 ^ (52 - exponent)))
    else if magnitude % 2 ^ (exponent - 52) = 0 then
      some (pattern (magnitude / 2 ^ (exponent - 52)))
    else none

example : ofIntExact? 1 = some 0x3FF0000000000000 ∧ ofIntExact? (-3) = some 0xC008000000000000 ∧
    ofIntExact? (2 ^ 53 + 1) = none := by decide

theorem isZero_iff (bits : UInt64) : isZero bits = true ↔ signedMagnitude bits = 0 := by
  have := bits.toNat_lt
  simp only [isZero, signedMagnitude, decide_eq_true_eq]
  split <;> omega

variable {a b bits : UInt64}

theorem eq_of_signedMagnitude (h : signedMagnitude a = signedMagnitude b)
    (hne : signedMagnitude a ≠ 0) : a = b := by
  have ha := a.toNat_lt
  have hb := b.toNat_lt
  unfold signedMagnitude at h hne
  apply UInt64.toNat_inj.mp
  split at h <;> split at h <;> omega

/-- Doubles of equal magnitude and sign have the same normalised pattern. -/
theorem normalizeZero_congr (h : signedMagnitude a = signedMagnitude b) :
    normalizeZero a = normalizeZero b := by
  by_cases hz : signedMagnitude a = 0
  · rw [normalizeZero, normalizeZero, if_pos ((isZero_iff a).mpr hz),
      if_pos ((isZero_iff b).mpr (h ▸ hz))]
  · rw [eq_of_signedMagnitude h hz]

theorem normalizeZero_eq_of_cmp (h : cmp a b = .eq) : normalizeZero a = normalizeZero b :=
  normalizeZero_congr (compare_eq_iff_eq.mp h)

@[simp] theorem normalizeZero_idem (bits : UInt64) :
    normalizeZero (normalizeZero bits) = normalizeZero bits := by
  unfold normalizeZero
  split <;> simp_all

theorem isFinite_normalizeZero (h : isFinite bits = true) :
    isFinite (normalizeZero bits) = true := by
  unfold normalizeZero
  split
  · decide
  · exact h

private theorem finite_pattern {sign exponent significand : ℕ}
    (hs : sign = 0 ∨ sign = 2 ^ 63) (he : exponent ≤ 63) (hf : significand < 2 ^ 53)
    (hb : UInt64.ofNat (sign + (exponent + 1023) * 2 ^ 52 + (significand - 2 ^ 52)) = bits) :
    isFinite bits = true ∧ normalizeZero bits = bits := by
  obtain ⟨fraction, hfraction⟩ : ∃ fraction, significand - 2 ^ 52 = fraction := ⟨_, rfl⟩
  have hlt : fraction < 2 ^ 52 := by omega
  rw [hfraction] at hb
  have hnat : bits.toNat = sign + (exponent + 1023) * 2 ^ 52 + fraction := by
    rw [← hb, UInt64.toNat_ofNat']
    apply Nat.mod_eq_of_lt
    rcases hs with rfl | rfl <;> omega
  refine ⟨?_, ?_⟩
  · simp only [isFinite, hnat, decide_eq_true_eq]
    rcases hs with rfl | rfl <;> omega
  · have hz : isZero bits = false := by
      simp only [isZero, hnat, decide_eq_false_iff_not]
      rcases hs with rfl | rfl <;> omega
    simp [normalizeZero, hz]

/-- The pattern of a 64-bit integer is finite and not the negative zero. -/
theorem finite_of_ofIntExact? {z : ℤ} (hz : z.natAbs < 2 ^ 64)
    (h : ofIntExact? z = some bits) : isFinite bits = true ∧ normalizeZero bits = bits := by
  unfold ofIntExact? at h
  split at h
  · cases h
    decide
  · rename_i hne
    have hpos : z.natAbs ≠ 0 := by omega
    have hsign : (if z < 0 then 2 ^ 63 else 0) = 0 ∨ (if z < 0 then 2 ^ 63 else 0) = 2 ^ 63 := by
      split <;> simp
    have hexp : z.natAbs.log2 ≤ 63 := by
      have := (Nat.log2_lt hpos).mpr hz
      omega
    have hlow : 2 ^ z.natAbs.log2 ≤ z.natAbs := Nat.log2_self_le hpos
    have hhigh : z.natAbs < 2 ^ (z.natAbs.log2 + 1) := Nat.lt_log2_self
    dsimp only at h
    split at h
    · rename_i hle
      refine finite_pattern hsign hexp ?_ (Option.some.inj h)
      have h52 : 2 ^ z.natAbs.log2 * 2 ^ (52 - z.natAbs.log2) = 2 ^ 52 := by
        rw [← pow_add]
        congr 1
        omega
      have hlt : z.natAbs * 2 ^ (52 - z.natAbs.log2) <
          2 ^ (z.natAbs.log2 + 1) * 2 ^ (52 - z.natAbs.log2) :=
        Nat.mul_lt_mul_of_pos_right hhigh (by positivity)
      rwa [pow_succ, mul_right_comm, h52] at hlt
    · split at h
      · refine finite_pattern hsign hexp ?_ (Option.some.inj h)
        rw [Nat.div_lt_iff_lt_mul (by positivity), ← pow_add]
        refine hhigh.trans_le (Nat.pow_le_pow_right (by decide) ?_)
        omega
      · cases h

private theorem toNat_ordered (bits : UInt64) : (ordered bits).toNat =
      if bits.toNat < 2 ^ 63 then bits.toNat + 2 ^ 63 else 2 ^ 64 - 1 - bits.toNat := by
  have hlt := bits.toNat_lt
  unfold ordered
  split
  · rename_i h
    have hone : ((1 : UInt64) <<< 63).toNat = 2 ^ 63 := by decide
    rw [UInt64.toNat_xor, hone, xor_two_pow (n := 63) (by omega), if_pos h]
  · rw [UInt64.toNat_not]; rfl

/-- The transformed patterns of normalised doubles compare like the doubles. -/
theorem compare_ordered (a b : UInt64) :
    compare (ordered (normalizeZero a)).toNat (ordered (normalizeZero b)).toNat = cmp a b := by
  -- A negative normalised pattern has a nonzero magnitude, so it lands strictly
  -- below the image of positive zero.
  have key : ∀ x : UInt64, ((ordered (normalizeZero x)).toNat : ℤ) =
      if 0 ≤ signedMagnitude x then 2 ^ 63 + signedMagnitude x
      else 2 ^ 63 - 1 + signedMagnitude x := by
    intro x
    have hlt := x.toNat_lt
    rw [toNat_ordered]
    by_cases hz : isZero x = true
    · have h0 : (normalizeZero x).toNat = 0 := by simp [normalizeZero, hz]
      rw [h0, (isZero_iff x).mp hz]; simp
    · have hx : normalizeZero x = x := by simp [normalizeZero, hz]
      have hne : signedMagnitude x ≠ 0 := fun h => hz ((isZero_iff x).mpr h)
      rw [hx]
      unfold signedMagnitude at *
      split <;> rename_i h <;> simp only [h, if_true, if_false] at hne ⊢ <;> split <;> omega
  have ha := key a
  have hb := key b
  unfold cmp
  rcases lt_trichotomy (signedMagnitude a) (signedMagnitude b) with h | h | h
  · rw [compare_lt_iff_lt.mpr h, compare_lt_iff_lt]; split at ha <;> split at hb <;> omega
  · rw [compare_eq_iff_eq.mpr h, compare_eq_iff_eq]; rw [h] at ha; omega
  · rw [compare_gt_iff_gt.mpr h, compare_gt_iff_gt]; split at ha <;> split at hb <;> omega

end UnionId.Lib.Float64
