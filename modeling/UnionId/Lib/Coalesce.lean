import Mathlib.Data.Finmap

/-!
# Coalesced change logs

A change log keeps at most one entry per key. A merge may drop an entry.
-/
namespace UnionId.Lib.Coalesce

variable {κ ε : Type} [DecidableEq κ]

abbrev Log (κ ε : Type) := Finmap fun _ : κ => ε

/-- Insert `fresh` at a vacant key; otherwise merge into the entry, or drop it. -/
def record (log : Log κ ε) (k : κ) (fresh : ε) (merge : ε → Option ε) : Log κ ε :=
  match log.lookup k with
  | none => log.insert k fresh
  | some entry =>
    match merge entry with
    | some merged => log.insert k merged
    | none => log.erase k

theorem lookup_record (log : Log κ ε) (k k' : κ) (fresh : ε) (merge : ε → Option ε) :
    (record log k fresh merge).lookup k' =
      if k' = k then (log.lookup k).elim (some fresh) merge else log.lookup k' := by
  unfold record
  by_cases hk : k' = k
  · subst hk
    cases log.lookup k' with
    | none => simp
    | some entry => cases h : merge entry <;> simp [h]
  · rw [if_neg hk]
    split
    · exact Finmap.lookup_insert_of_ne _ hk
    · split
      · exact Finmap.lookup_insert_of_ne _ hk
      · exact Finmap.lookup_erase_ne hk

end UnionId.Lib.Coalesce
