import Mathlib.Data.Set.Basic

/-!
# Referential integrity under a batch

Sources and targets are sets of key-identity entries, and integrity means that
every source key has a target. A batch drops the entries of the identities it
touches and adds new ones. `holds_revise_iff` decides integrity afterwards from
the batch alone, without looking at the untouched sources: only keys that lose
their target and keys of new sources matter.
-/
namespace UnionId.Lib.Integrity

variable {κ ι : Type}

/-- Every source key has a target. -/
def Holds (source target : Set (κ × ι)) : Prop := ∀ e ∈ source, ∃ id, (e.1, id) ∈ target

/-- At most one identity per key. -/
def Unique (S : Set (κ × ι)) : Prop := ∀ k a b, (k, a) ∈ S → (k, b) ∈ S → a = b

/-- Drop the entries of touched identities and add new ones. -/
def revise (S : Set (κ × ι)) (touched : Set ι) (new : Set (κ × ι)) : Set (κ × ι) :=
  {e | e ∈ S ∧ e.2 ∉ touched} ∪ new

/-- A key that the batch provides. -/
def Provides (new : Set (κ × ι)) (k : κ) : Prop := ∃ id, (k, id) ∈ new

variable {source target : Set (κ × ι)}

/-- A key that loses its target is provided again or no longer used. -/
def RemovalsCovered (source target newSources newTargets : Set (κ × ι))
    (touchedS touchedT : Set ι) : Prop :=
  ∀ e ∈ target, e.2 ∈ touchedT → Provides newTargets e.1 ∨
    (¬ Provides newSources e.1 ∧ ∀ id, (e.1, id) ∈ source → id ∈ touchedS)

/-- A new source key is provided by the batch or by an untouched target. -/
def SourcesCovered (target newSources newTargets : Set (κ × ι)) (touchedT : Set ι) : Prop :=
  ∀ k, Provides newSources k → Provides newTargets k ∨ ∃ id, (k, id) ∈ target ∧ id ∉ touchedT

/-- **Integrity after a batch.** It needs integrity before, and that targets are
unique there. -/
theorem holds_revise_iff (hold : Holds source target) (huniq : Unique target)
    (newSources newTargets : Set (κ × ι)) (touchedS touchedT : Set ι) :
    Holds (revise source touchedS newSources) (revise target touchedT newTargets) ↔
      RemovalsCovered source target newSources newTargets touchedS touchedT ∧
        SourcesCovered target newSources newTargets touchedT := by
  constructor
  · intro h
    -- a key of the new sources has a new or an untouched target
    have hkey : ∀ e ∈ revise source touchedS newSources, Provides newTargets e.1 ∨
        ∃ id, (e.1, id) ∈ target ∧ id ∉ touchedT := by
      intro e he
      obtain ⟨id, ⟨hin, hid⟩ | hnew⟩ := h e he
      · exact .inr ⟨id, hin, hid⟩
      · exact .inl ⟨id, hnew⟩
    refine ⟨fun e he htouched => ?_, fun k ⟨id, hid⟩ => hkey (k, id) (.inr hid)⟩
    by_cases hnew : Provides newTargets e.1
    · exact .inl hnew
    · have hgone : ∀ id, (e.1, id) ∉ revise source touchedS newSources := by
        intro id hin
        obtain hp | ⟨id', hin', hid'⟩ := hkey _ hin
        · exact hnew hp
        · exact hid' (huniq e.1 e.2 id' he hin' ▸ htouched)
      refine .inr ⟨fun ⟨id, hid⟩ => hgone id (.inr hid), fun id hid => ?_⟩
      by_contra hnot
      exact hgone id (.inl ⟨hid, hnot⟩)
  · rintro ⟨hrem, hsrc⟩ e (⟨he, hnot⟩ | he)
    · obtain ⟨id, hid⟩ := hold e he
      by_cases htouched : id ∈ touchedT
      · obtain ⟨id', hid'⟩ | ⟨-, hall⟩ := hrem _ hid htouched
        · exact ⟨id', .inr hid'⟩
        · exact absurd (hall e.2 he) hnot
      · exact ⟨id, .inl ⟨hid, htouched⟩⟩
    · obtain ⟨id, hid⟩ | ⟨id, hid, hnot⟩ := hsrc e.1 ⟨e.2, he⟩
      · exact ⟨id, .inr hid⟩
      · exact ⟨id, .inl ⟨hid, hnot⟩⟩

end UnionId.Lib.Integrity
