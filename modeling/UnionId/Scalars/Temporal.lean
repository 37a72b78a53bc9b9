import UnionId.Lib.Fallible
import UnionId.Model.Types

/-!
# Range-checked scalars

Construction of the scalars that carry a range: civil days, instants and binary
data.
-/
namespace UnionId

open Lib

/-- A civil day, when it falls into the supported years. -/
def Date.fromEpochDays (days : Int32) : Result Date :=
  if h : -719162 ≤ days.toInt ∧ days.toInt ≤ 2932896 then pure ⟨days, h⟩
  else fail .E_SCALAR_LITERAL "date outside years 0001 through 9999"

/-- An instant, when it falls into the supported years. -/
def Timestamp.fromEpochMicroseconds (value : Int64) : Result Timestamp :=
  if h : -719162 * 86400000000 ≤ value.toInt ∧ value.toInt < (2932896 + 1) * 86400000000 then
    pure ⟨value, h⟩
  else fail .E_SCALAR_LITERAL "timestamp outside UTC date range"

/-- Binary data of a bounded size. -/
def Bytes.new (value : List UInt8) : Result Bytes :=
  if h : value.length ≤ MAX_BYTES then pure ⟨value, h⟩
  else fail .E_SCALAR_LITERAL "bytes exceed 16 MiB"

theorem Date.fromEpochDays_eq_ok {days : Int32} {d : Date} :
    fromEpochDays days = .ok d ↔ d.epochDays = days := by
  unfold fromEpochDays
  split
  · simp [Date.ext_iff, eq_comm]
  · rename_i h
    refine ⟨fun hd => by simp at hd, fun hd => ?_⟩
    subst hd
    exact absurd d.inRange h

theorem Timestamp.fromEpochMicroseconds_eq_ok {value : Int64} {t : Timestamp} :
    fromEpochMicroseconds value = .ok t ↔ t.epochMicroseconds = value := by
  unfold fromEpochMicroseconds
  split
  · simp [Timestamp.ext_iff, eq_comm]
  · rename_i h
    refine ⟨fun ht => by simp at ht, fun ht => ?_⟩
    subst ht
    exact absurd t.inRange h

theorem Bytes.new_eq_ok {value : List UInt8} {b : Bytes} : new value = .ok b ↔ b.bytes = value := by
  unfold new
  split
  · simp [Bytes.ext_iff, eq_comm]
  · rename_i h
    refine ⟨fun hb => by simp at hb, fun hb => ?_⟩
    subst hb
    exact absurd b.length_le h

end UnionId
