import UnionId.Lib.Fallible
import UnionId.Model.Types

/-!
# Exact decimals

Construction and exact rescaling. The machine coefficient is a signed 128-bit
integer; every constructed decimal stays below 38 digits.
-/
namespace UnionId

open Lib

/-- The signed 128-bit range. -/
def fitsI128 (z : ℤ) : Bool := -2 ^ 127 ≤ z ∧ z < 2 ^ 127

def validateDecimalType (precision scale : ℕ) : Result Unit :=
  if ¬(1 ≤ precision ∧ precision ≤ 38) ∨ scale > precision then
    fail .E_DECIMAL_TYPE "decimal requires 1 <= precision <= 38 and scale <= precision"
  else pure ()

namespace Decimal

/-- Build a decimal whose coefficient fits the declared precision. -/
def new (coefficient : ℤ) (precision scale : ℕ) : Result Decimal := do
  validateDecimalType precision scale
  if h : coefficient.natAbs < 10 ^ precision ∧ precision ≤ 38 then
    pure ⟨coefficient, scale, h.1.trans_le (Nat.pow_le_pow_right (by decide) h.2)⟩
  else fail .E_DECIMAL_RANGE "decimal coefficient exceeds precision"

/-- The coefficient at another scale, when no digit is lost. -/
def rescaleCoefficient (d : Decimal) (scale : ℕ) : Result ℤ :=
  if scale ≥ d.scale then
    let widened := d.coefficient * 10 ^ (scale - d.scale)
    if fitsI128 widened then pure widened
    else fail .E_DECIMAL_RANGE "decimal rescale overflows"
  else
    let divisor := 10 ^ (d.scale - scale)
    if d.coefficient.tmod divisor ≠ 0 then
      fail .E_DECIMAL_RANGE "decimal rescale would discard nonzero digits"
    else pure (d.coefficient.tdiv divisor)

/-- Change the scale without losing a digit. -/
def rescale (d : Decimal) (precision scale : ℕ) : Result Decimal := do
  validateDecimalType precision scale
  let coefficient ← d.rescaleCoefficient scale
  new coefficient precision scale

variable {precision scale : ℕ} {d : Decimal}

theorem new_eq_ok {coefficient : ℤ} (h : new coefficient precision scale = .ok d) :
    (1 ≤ precision ∧ precision ≤ 38) ∧ scale ≤ precision ∧ coefficient.natAbs < 10 ^ precision ∧
      d.coefficient = coefficient ∧ d.scale = scale := by
  simp only [new, validateDecimalType, bind_eq_ok] at h
  obtain ⟨u, hv, h⟩ := h
  split at hv
  · simp at hv
  · rename_i hv'
    split at h
    · rename_i hc
      cases h
      simp only [not_or, not_not, not_lt] at hv'
      exact ⟨hv'.1, hv'.2, hc.1, rfl, rfl⟩
    · simp at h

theorem rescale_scale {e : Decimal} (h : d.rescale precision scale = .ok e) : e.scale = scale := by
  simp only [rescale, bind_eq_ok] at h
  obtain ⟨-, -, c, -, h⟩ := h
  exact (new_eq_ok h).2.2.2.2

/-- What is built for a type already has its shape. -/
theorem rescale_of_new {coefficient : ℤ}
    (h : new coefficient precision scale = .ok d) : d.rescale precision scale = .ok d := by
  obtain ⟨hp, hs, hc, rfl, rfl⟩ := new_eq_ok h
  have hfit : fitsI128 d.coefficient = true := by
    have := d.bounded
    simp only [fitsI128, decide_eq_true_eq]
    constructor <;> omega
  have hsame : d.rescaleCoefficient d.scale = .ok d.coefficient := by
    simp [rescaleCoefficient, hfit]
  have hvalid : validateDecimalType precision d.scale = .ok () := by
    rw [validateDecimalType, if_neg (by omega)]
    rfl
  rw [rescale, hvalid, ok_bind, hsame, ok_bind, h]

/-- Rescaling is a projection: the result already has the target shape. -/
theorem rescale_rescale {e : Decimal}
    (h : d.rescale precision scale = .ok e) : e.rescale precision scale = .ok e := by
  simp only [rescale, bind_eq_ok] at h
  obtain ⟨u, -, c, -, h⟩ := h
  exact rescale_of_new h

/-- A decimal that already has the shape of a type is built from its coefficient. -/
theorem new_of_rescale
    (h : d.rescale precision scale = .ok d) : new d.coefficient precision scale = .ok d := by
  simp only [rescale, bind_eq_ok] at h
  obtain ⟨u, -, c, -, h⟩ := h
  obtain ⟨-, -, -, rfl, -⟩ := new_eq_ok h
  exact h

end Decimal
end UnionId
