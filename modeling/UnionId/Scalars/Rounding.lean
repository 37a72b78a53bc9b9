import UnionId.Lib.Rounding
import UnionId.Scalars.Decimal

/-!
# Decimal operations that round

Multiplication, division, rescaling and averages compute a ratio of unbounded integers
and round it to a declared scale. The sign is taken off first: the magnitude is
rounded by its remainder.

## Main results

* `roundRatio_eq` — the ratio is rounded as its mode says.
* `Decimal.exactly_rounded` — so is the result of each operation, or it does not fit.
-/
namespace UnionId

open Lib

/-- Explicit rounding of operations that can discard digits. -/
inductive DecimalRounding where
  | exact
  | towardZero
  | awayFromZero
  | floor
  | ceil
  | halfUp
  | halfEven
  deriving DecidableEq, Repr

def arithmetic {α : Type} (message : String) : Result α := fail .E_ARITH message

/-- Whether a magnitude with a nonzero remainder goes up. -/
def DecimalRounding.increment (rounding : DecimalRounding) (negative : Bool)
    (quotient remainder denominator : ℕ) : Bool :=
  match rounding with
  | .exact | .towardZero => false
  | .awayFromZero => true
  | .floor => negative
  | .ceil => !negative
  | .halfUp => remainder * 2 ≥ denominator
  | .halfEven => remainder * 2 > denominator ∨ remainder * 2 = denominator ∧ quotient % 2 ≠ 0

/-- The sign of a ratio, put back on its magnitude. -/
def signed (negative : Bool) (magnitude : ℕ) : ℤ := if negative then -magnitude else magnitude

/-- Round the ratio of two magnitudes. -/
def roundMagnitude (negative : Bool) (numerator denominator : ℕ) (rounding : DecimalRounding) :
    Result ℤ :=
  if numerator % denominator = 0 then pure (signed negative (numerator / denominator))
  else if rounding = .exact then
    arithmetic "decimal operation requires rounding but mode is exact"
  else
    pure (signed negative (numerator / denominator + (rounding.increment negative
      (numerator / denominator) (numerator % denominator) denominator).toNat))

def roundRatio (numerator denominator : ℤ) (rounding : DecimalRounding) : Result ℤ :=
  if denominator = 0 then arithmetic "decimal division by zero"
  else
    roundMagnitude (decide (numerator < 0) != decide (denominator < 0)) numerator.natAbs
      denominator.natAbs rounding

namespace Decimal

/-- Back to the machine coefficient, within the declared precision. -/
def fromBigint (coefficient : ℤ) (precision scale : ℕ) (operation : String) : Result Decimal :=
  if !fitsI128 coefficient then arithmetic (operation ++ " exceeds 38 digits")
  else
    match new coefficient precision scale with
    | .error e =>
      if e.code = .E_DECIMAL_RANGE then
        arithmetic (operation ++ " exceeds decimal " ++ toString precision ++ " " ++ toString scale)
      else .error e
    | ok => ok

def rescaleWithRounding (d : Decimal) (precision scale : ℕ) (rounding : DecimalRounding) :
    Result Decimal := do
  validateDecimalType precision scale
  let coefficient ←
    (if scale ≥ d.scale then pure (d.coefficient * 10 ^ (scale - d.scale))
    else roundRatio d.coefficient (10 ^ (d.scale - scale)) rounding)
  fromBigint coefficient precision scale "decimal rounding"

def checkedMulTo (d other : Decimal) (precision scale : ℕ) (rounding : DecimalRounding) :
    Result Decimal := do
  validateDecimalType precision scale
  let coefficient ←
    (if scale ≥ d.scale + other.scale then
      pure (d.coefficient * other.coefficient * 10 ^ (scale - (d.scale + other.scale)))
    else
      roundRatio (d.coefficient * other.coefficient)
        (10 ^ (d.scale + other.scale - scale)) rounding)
  fromBigint coefficient precision scale "decimal multiplication"

def checkedDivTo (d other : Decimal) (precision scale : ℕ) (rounding : DecimalRounding) :
    Result Decimal := do
  validateDecimalType precision scale
  if other.coefficient = 0 then arithmetic "decimal division by zero"
  else do
    let coefficient ←
      (if scale + other.scale ≥ d.scale then
        roundRatio (d.coefficient * 10 ^ (scale + other.scale - d.scale)) other.coefficient rounding
      else
        roundRatio d.coefficient (other.coefficient * 10 ^ (d.scale - (scale + other.scale)))
          rounding)
    fromBigint coefficient precision scale "decimal division"

/-- The mean of `count` decimals of one scale, from the sum of their coefficients. -/
def averageCoefficients (coefficient : ℤ) (sourceScale : ℕ) (count : Int64) (precision scale : ℕ)
    (rounding : DecimalRounding) : Result Decimal := do
  validateDecimalType precision scale
  let coefficient ←
    (if scale ≥ sourceScale then
      roundRatio (coefficient * 10 ^ (scale - sourceScale)) count.toInt rounding
    else roundRatio coefficient (count.toInt * 10 ^ (sourceScale - scale)) rounding)
  fromBigint coefficient precision scale "decimal average"

end Decimal

/-! ## What the modes mean -/

/-- The rounding of a rational number: nothing when digits would be lost and must not be. -/
def DecimalRounding.round : DecimalRounding → ℚ → Option ℤ
  | .exact, q => if (⌊q⌋ : ℚ) = q then some ⌊q⌋ else none
  | .towardZero, q => some (truncate q)
  | .awayFromZero, q => some (outward q)
  | .floor, q => some ⌊q⌋
  | .ceil, q => some ⌈q⌉
  | .halfUp, q => some (nearestAway q)
  | .halfEven, q => some (nearestEven q)

namespace DecimalRounding

/-- Integers are left alone. -/
theorem round_intCast (rounding : DecimalRounding) (z : ℤ) : rounding.round (z : ℚ) = some z := by
  cases rounding with
  | halfUp =>
    have hup : ⌊(z : ℚ) + 1 / 2⌋ = z := by
      rw [Int.floor_intCast_add]
      norm_num
    have hdown : ⌈(z : ℚ) - 1 / 2⌉ = z := by
      rw [Int.ceil_eq_iff]
      constructor <;> linarith
    simp only [round, nearestAway, hup, hdown, ite_self]
  | _ => simp [round, truncate, outward, nearestEven]

theorem round_eq_none {rounding : DecimalRounding} {q : ℚ} :
    rounding.round q = none ↔ rounding = .exact ∧ ¬∃ z : ℤ, (z : ℚ) = q := by
  cases rounding with
  | exact =>
    have hfloor : (⌊q⌋ : ℚ) = q ↔ ∃ z : ℤ, (z : ℚ) = q := by
      refine ⟨fun h => ⟨_, h⟩, ?_⟩
      rintro ⟨z, rfl⟩
      rw [Int.floor_intCast]
    simp [round, hfloor]
  | _ => simp [round]

variable {n d : ℕ} {rounding : DecimalRounding}

theorem toNat_decide (p : Prop) [Decidable p] : ((decide p).toNat : ℤ) = if p then 1 else 0 := by
  split <;> simp [*]

theorem round_natCast_div (hd : 0 < d) (hn : n % d ≠ 0) (hexact : rounding ≠ .exact) :
    rounding.round ((n : ℚ) / d) =
      some ((n / d : ℕ) + (rounding.increment false (n / d) (n % d) d).toNat : ℤ) := by
  cases rounding with
  | exact => exact absurd rfl hexact
  | towardZero => simp [round, increment, truncate_natCast_div]
  | awayFromZero => simp [round, increment, outward_natCast_div hd hn]
  | floor => simp [round, increment, floor_natCast_div]
  | ceil => simp [round, increment, ceil_natCast_div hd hn]
  | halfUp => simp only [round, increment, nearestAway_natCast_div hd, toNat_decide]
  | halfEven => simp only [round, increment, nearestEven_natCast_div hd, toNat_decide]

/-- Below zero, the floor and the ceiling change places. -/
theorem round_neg_natCast_div (hd : 0 < d) (hn : n % d ≠ 0) (hexact : rounding ≠ .exact) :
    rounding.round (-((n : ℚ) / d)) =
      some (-((n / d : ℕ) + (rounding.increment true (n / d) (n % d) d).toNat : ℤ)) := by
  have hfract := fract_natCast_div_ne_zero (K := ℚ) hd hn
  have hpos : (0 : ℚ) < (n : ℚ) / d := by
    have hn0 : 0 < n := Nat.pos_of_ne_zero fun h => hn (by simp [h])
    positivity
  cases rounding with
  | exact => exact absurd rfl hexact
  | towardZero => simp [round, increment, truncate_neg hpos, truncate_natCast_div]
  | awayFromZero => simp [round, increment, outward_neg hpos, outward_natCast_div hd hn]
  | floor => simp [round, increment, Int.floor_neg, ceil_natCast_div hd hn]
  | ceil => simp [round, increment, Int.ceil_neg, floor_natCast_div]
  | halfUp =>
    simp only [round, increment, nearestAway_neg hpos, nearestAway_natCast_div hd, toNat_decide]
  | halfEven =>
    simp only [round, increment, nearestEven_neg hfract, nearestEven_natCast_div hd, toNat_decide]

end DecimalRounding

/-- The signed magnitude of a ratio. -/
theorem natAbs_div_natAbs (n d : ℤ) : (n : ℚ) / d =
    if (decide (n < 0) != decide (d < 0)) = true then -((n.natAbs : ℚ) / d.natAbs)
    else (n.natAbs : ℚ) / d.natAbs := by
  rw [Nat.cast_natAbs, Nat.cast_natAbs, Int.cast_abs, Int.cast_abs]
  rcases lt_or_ge n 0 with hn | hn <;> rcases lt_or_ge d 0 with hd | hd <;>
    simp [hn, hd, not_lt.mpr, abs_of_neg, abs_of_nonneg, neg_div, div_neg]

theorem roundMagnitude_eq {n d : ℕ} (hd : 0 < d) (negative : Bool) (rounding : DecimalRounding) :
    roundMagnitude negative n d rounding =
      match rounding.round (if negative = true then -((n : ℚ) / d) else (n : ℚ) / d) with
      | some z => pure z
      | none => arithmetic "decimal operation requires rounding but mode is exact" := by
  unfold roundMagnitude
  split
  · next hn =>
    -- nothing to round: the ratio is an integer
    have hq : (if negative = true then -((n : ℚ) / d) else (n : ℚ) / d) =
        (signed negative (n / d) : ℤ) := by
      obtain ⟨k, rfl⟩ := Nat.dvd_of_mod_eq_zero hn
      have hd0 : (d : ℚ) ≠ 0 := Nat.cast_ne_zero.mpr hd.ne'
      cases negative <;> simp [signed, hd, mul_div_cancel_left₀, hd0]
    rw [hq, rounding.round_intCast]
  · next hn =>
    split
    · next hexact =>
      have hnone : rounding.round (if negative = true then -((n : ℚ) / d) else (n : ℚ) / d) =
          none := by
        refine DecimalRounding.round_eq_none.mpr ⟨hexact, ?_⟩
        rintro ⟨z, hz⟩
        have hfract := fract_natCast_div_ne_zero (K := ℚ) hd hn
        cases negative with
        | false => exact hfract (Int.fract_eq_zero_iff.mpr ⟨z, by simpa using hz⟩)
        | true =>
          exact hfract (Int.fract_eq_zero_iff.mpr ⟨-z, by
            rw [Int.cast_neg, hz, if_pos rfl, neg_neg]⟩)
      rw [hnone]
    · next hexact =>
      cases negative with
      | false => simp [DecimalRounding.round_natCast_div hd hn hexact, signed]
      | true => simp [DecimalRounding.round_neg_natCast_div hd hn hexact, signed]

/-- **A ratio is rounded as its mode says.** -/
theorem roundRatio_eq {n d : ℤ} (hd : d ≠ 0) (rounding : DecimalRounding) :
    roundRatio n d rounding =
      match rounding.round ((n : ℚ) / d) with
      | some z => pure z
      | none => arithmetic "decimal operation requires rounding but mode is exact" := by
  rw [roundRatio, if_neg hd, roundMagnitude_eq (Int.natAbs_pos.mpr hd), ← natAbs_div_natAbs]

/-! ## The operations -/

namespace Decimal

/-- The number a decimal stands for. -/
def toRat (d : Decimal) : ℚ := d.coefficient / 10 ^ d.scale

/-- The outcome of an operation whose exact result is `q`: the coefficient at the target
scale is rounded by the mode, and the operation fails exactly when the mode may not lose
digits and would, or the rounded coefficient does not fit. -/
structure RoundsTo (result : Result Decimal) (q : ℚ) (precision scale : ℕ)
    (rounding : DecimalRounding) : Prop where
  value : ∀ d, result = .ok d → rounding.round (q * 10 ^ scale) = some d.coefficient ∧
    d.scale = scale ∧ |d.coefficient| < 10 ^ precision
  failure : (∃ e, result = .error e) ↔
    (rounding = .exact ∧ ¬∃ z : ℤ, (z : ℚ) = q * 10 ^ scale) ∨
      ∃ z, rounding.round (q * 10 ^ scale) = some z ∧ 10 ^ precision ≤ |z|

variable {precision scale : ℕ}

theorem validateDecimalType_eq_ok
    (h : validateDecimalType precision scale = .ok ()) : precision ≤ 38 := by
  unfold validateDecimalType at h
  split at h
  · cases h
  · omega

theorem natAbs_lt_pow {z : ℤ} {n : ℕ} : z.natAbs < 10 ^ n ↔ |z| < 10 ^ n := by
  rw [Int.abs_eq_natAbs]
  exact_mod_cast Iff.rfl

variable {coefficient : ℤ} {operation : String}

/-- A coefficient comes back exactly when it has few enough digits. -/
theorem fromBigint_eq_ok (hvalid : validateDecimalType precision scale = .ok ()) {d : Decimal} :
    fromBigint coefficient precision scale operation = .ok d ↔
      d.coefficient = coefficient ∧ d.scale = scale ∧ |coefficient| < 10 ^ precision := by
  have hp := validateDecimalType_eq_ok hvalid
  constructor
  · intro h
    unfold fromBigint at h
    obtain ⟨-, h⟩ := of_refused h
    split at h
    · split at h <;> cases h
    · next hnew =>
      obtain ⟨-, -, hlt, hc, hs⟩ := new_eq_ok h
      exact ⟨hc, hs, natAbs_lt_pow.mp hlt⟩
  · rintro ⟨rfl, rfl, hlt⟩
    have hfits : fitsI128 d.coefficient = true := by
      have := d.bounded
      simp only [fitsI128, decide_eq_true_eq]
      constructor <;> omega
    have hnew : new d.coefficient precision d.scale = .ok d := by
      rw [new, hvalid, ok_bind, dif_pos ⟨natAbs_lt_pow.mpr hlt, hp⟩]
      rfl
    rw [fromBigint, hfits, if_neg (by simp), hnew]

theorem exists_decimal (hp : precision ≤ 38) (h : |coefficient| < 10 ^ precision) (scale : ℕ) :
    ∃ d : Decimal, d.coefficient = coefficient ∧ d.scale = scale := by
  have hlt := (natAbs_lt_pow.mpr h).trans_le (Nat.pow_le_pow_right (by decide) hp)
  exact ⟨⟨coefficient, scale, hlt⟩, rfl, rfl⟩

/-- Rounding and then fitting the result. -/
theorem roundsTo_of_eq {coefficient : Result ℤ} {q : ℚ} {rounding : DecimalRounding}
    (hvalid : validateDecimalType precision scale = .ok ())
    (h : coefficient = match rounding.round (q * 10 ^ scale) with
      | some z => pure z
      | none => arithmetic "decimal operation requires rounding but mode is exact") :
    RoundsTo (coefficient >>= fun c => fromBigint c precision scale operation) q precision scale
      rounding := by
  subst h
  cases hround : rounding.round (q * 10 ^ scale) with
  | none =>
    have hlost := DecimalRounding.round_eq_none.mp hround
    exact ⟨nofun, iff_of_true ⟨_, rfl⟩ (.inl hlost)⟩
  | some z =>
    have hsome : ¬(rounding = .exact ∧ ¬∃ z : ℤ, (z : ℚ) = q * 10 ^ scale) := fun h => by
      rw [DecimalRounding.round_eq_none.mpr h] at hround
      cases hround
    refine ⟨fun d hd => ?_, ?_⟩
    · obtain ⟨hc, hs, hlt⟩ := (fromBigint_eq_ok hvalid).mp hd
      exact ⟨hc ▸ hround, hs, hc ▸ hlt⟩
    · simp only [hsome, hround, false_or, Option.some.injEq, exists_eq_left']
      constructor
      · rintro ⟨e, he⟩
        by_contra hlt
        obtain ⟨d, hc, hs⟩ :=
          exists_decimal (validateDecimalType_eq_ok hvalid) (not_le.mp hlt) scale
        cases ((fromBigint_eq_ok hvalid).mpr ⟨hc, hs, not_le.mp hlt⟩).symm.trans he
      · intro hle
        cases hrun : fromBigint z precision scale operation with
        | error e => exact ⟨e, hrun⟩
        | ok d => exact absurd ((fromBigint_eq_ok hvalid).mp hrun).2.2 (not_lt.mpr hle)

/-- Moving a power of ten from the scale to the numerator or the denominator. -/
theorem ten_pow_sub {m n : ℕ} (h : n ≤ m) : (10 : ℚ) ^ (m - n) = 10 ^ m / 10 ^ n :=
  pow_sub₀ 10 (by norm_num) h

theorem rescaleWithRounding_roundsTo (d : Decimal)
    (hvalid : validateDecimalType precision scale = .ok ()) (rounding : DecimalRounding) :
    RoundsTo (d.rescaleWithRounding precision scale rounding) d.toRat precision scale rounding := by
  rw [rescaleWithRounding, hvalid, ok_bind]
  apply roundsTo_of_eq hvalid
  split
  · next hge =>
    have hq : d.toRat * 10 ^ scale = (d.coefficient * 10 ^ (scale - d.scale) : ℤ) := by
      push_cast
      rw [toRat, ten_pow_sub hge]
      ring
    rw [hq, rounding.round_intCast]
  · next hlt =>
    have hq : d.toRat * 10 ^ scale = (d.coefficient : ℚ) / (10 ^ (d.scale - scale) : ℤ) := by
      push_cast
      rw [toRat, ten_pow_sub (not_le.mp hlt).le]
      field_simp
    rw [hq, roundRatio_eq (by positivity)]

theorem checkedMulTo_roundsTo (d other : Decimal)
    (hvalid : validateDecimalType precision scale = .ok ()) (rounding : DecimalRounding) :
    RoundsTo (d.checkedMulTo other precision scale rounding) (d.toRat * other.toRat) precision scale
      rounding := by
  rw [checkedMulTo, hvalid, ok_bind]
  apply roundsTo_of_eq hvalid
  split
  · next hge =>
    have hq : d.toRat * other.toRat * 10 ^ scale =
        (d.coefficient * other.coefficient * 10 ^ (scale - (d.scale + other.scale)) : ℤ) := by
      push_cast
      rw [toRat, toRat, ten_pow_sub hge, pow_add]
      field_simp
    rw [hq, rounding.round_intCast]
  · next hlt =>
    have hq : d.toRat * other.toRat * 10 ^ scale =
        (d.coefficient * other.coefficient : ℤ) / (10 ^ (d.scale + other.scale - scale) : ℤ) := by
      push_cast
      rw [toRat, toRat, ten_pow_sub (not_le.mp hlt).le, pow_add]
      field_simp
    rw [hq, roundRatio_eq (by positivity)]

theorem checkedDivTo_roundsTo (d other : Decimal)
    (hvalid : validateDecimalType precision scale = .ok ()) (hother : other.coefficient ≠ 0)
    (rounding : DecimalRounding) :
    RoundsTo (d.checkedDivTo other precision scale rounding) (d.toRat / other.toRat) precision scale
      rounding := by
  have hother' : (other.coefficient : ℚ) ≠ 0 := Int.cast_ne_zero.mpr hother
  rw [checkedDivTo, hvalid, ok_bind, if_neg hother]
  apply roundsTo_of_eq hvalid
  split
  · next hge =>
    have hq : d.toRat / other.toRat * 10 ^ scale =
        (d.coefficient * 10 ^ (scale + other.scale - d.scale) : ℤ) / (other.coefficient : ℤ) := by
      push_cast
      rw [toRat, toRat, ten_pow_sub hge, pow_add]
      field_simp
    rw [hq, roundRatio_eq hother]
  · next hlt =>
    have hq : d.toRat / other.toRat * 10 ^ scale = (d.coefficient : ℚ) /
        (other.coefficient * 10 ^ (d.scale - (scale + other.scale)) : ℤ) := by
      push_cast
      rw [toRat, toRat, ten_pow_sub (not_le.mp hlt).le, pow_add]
      field_simp
    rw [hq, roundRatio_eq (by positivity)]

theorem averageCoefficients_roundsTo (coefficient : ℤ) (sourceScale : ℕ) {count : Int64}
    (hvalid : validateDecimalType precision scale = .ok ())
    (hcount : count.toInt ≠ 0) (rounding : DecimalRounding) :
    RoundsTo (averageCoefficients coefficient sourceScale count precision scale rounding)
      (coefficient / 10 ^ sourceScale / count.toInt) precision scale rounding := by
  have hcount' : (count.toInt : ℚ) ≠ 0 := Int.cast_ne_zero.mpr hcount
  rw [averageCoefficients, hvalid, ok_bind]
  apply roundsTo_of_eq hvalid
  split
  · next hge =>
    have hq : (coefficient : ℚ) / 10 ^ sourceScale / count.toInt * 10 ^ scale =
        (coefficient * 10 ^ (scale - sourceScale) : ℤ) / (count.toInt : ℤ) := by
      push_cast
      rw [ten_pow_sub hge]
      field_simp
    rw [hq, roundRatio_eq hcount]
  · next hlt =>
    have hq : (coefficient : ℚ) / 10 ^ sourceScale / count.toInt * 10 ^ scale =
        (coefficient : ℚ) / (count.toInt * 10 ^ (sourceScale - scale) : ℤ) := by
      push_cast
      rw [ten_pow_sub (not_le.mp hlt).le]
      field_simp
    rw [hq, roundRatio_eq (by positivity)]

/-- **Decimal operations are exactly rounded.** A zero divisor is refused; otherwise each
result is the exact one rounded to the target scale, unless the mode forbids it or the
coefficient has too many digits. -/
theorem exactly_rounded {precision scale : ℕ}
    (hvalid : validateDecimalType precision scale = .ok ()) (rounding : DecimalRounding)
    (a b : Decimal) :
    RoundsTo (a.checkedMulTo b precision scale rounding) (a.toRat * b.toRat) precision scale
        rounding ∧
      (b.coefficient ≠ 0 → RoundsTo (a.checkedDivTo b precision scale rounding)
        (a.toRat / b.toRat) precision scale rounding) ∧
      (b.coefficient = 0 → ∃ e, a.checkedDivTo b precision scale rounding = .error e) ∧
      RoundsTo (a.rescaleWithRounding precision scale rounding) a.toRat precision scale rounding ∧
      ∀ (total : ℤ) (sourceScale : ℕ) (count : Int64),
        (count ≠ 0 → RoundsTo (averageCoefficients total sourceScale count precision scale rounding)
          (total / 10 ^ sourceScale / count.toInt) precision scale rounding) ∧
        (count = 0 →
          ∃ e, averageCoefficients total sourceScale count precision scale rounding
            = .error e) := by
  refine ⟨checkedMulTo_roundsTo a b hvalid rounding,
    fun hb => checkedDivTo_roundsTo a b hvalid hb rounding, fun hb => ?_,
    rescaleWithRounding_roundsTo a hvalid rounding, fun total sourceScale count => ⟨?_, ?_⟩⟩
  · rw [checkedDivTo, hvalid, ok_bind, if_pos hb]
    exact ⟨_, rfl⟩
  · intro hcount
    refine averageCoefficients_roundsTo total sourceScale hvalid (fun h => hcount ?_) rounding
    exact Int64.toInt_inj.mp h
  · rintro rfl
    rw [averageCoefficients, hvalid, ok_bind]
    split <;> exact ⟨_, by simp [roundRatio]; rfl⟩

/-- Ties of `0.25` at one decimal place. -/
theorem exactly_rounded_quarter :
    validateDecimalType 5 1 = .ok () ∧
      RoundsTo (Decimal.rescaleWithRounding ⟨25, 2, by decide⟩ 5 1 .halfEven)
        (toRat ⟨25, 2, by decide⟩) 5 1 .halfEven :=
  ⟨rfl, (exactly_rounded rfl .halfEven ⟨25, 2, by decide⟩ ⟨25, 2, by decide⟩).2.2.2.1⟩

end Decimal

end UnionId
