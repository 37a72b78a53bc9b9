import UnionId.Db.Types
import UnionId.Lib.Fallible

/-!
# Rows and batches of changes

The rows of a table are a finite map from identities to rows, listed in ascending
identity. A batch changes each identity at most once and states what it found
there; `applyChanges` is the table after all of them at once.
-/
namespace UnionId

open Lib List

def RowsAscending (rows : List Row) : Prop := rows.Pairwise fun a b => a.id < b.id

section FindRow
variable {rows : List Row} {row : Row} {id : RowId}

theorem RowsAscending.nodup (h : RowsAscending rows) : (rows.map Row.id).Nodup :=
  pairwise_map.mpr (h.imp fun hab => ne_of_lt hab)

theorem RowsAscending.eq_of_id_eq (h : RowsAscending rows) {a b : Row} (ha : a ∈ rows)
    (hb : b ∈ rows) (hid : a.id = b.id) : a = b :=
  inj_on_of_nodup_map h.nodup ha hb hid

theorem RowsAscending.findRow_eq_some (h : RowsAscending rows) :
    findRow rows id = some row ↔ row ∈ rows ∧ row.id = id :=
  find?_key_eq_some h.nodup

theorem mem_of_findRow (h : findRow rows id = some row) : row ∈ rows ∧ row.id = id :=
  ⟨mem_of_find?_eq_some h, by simpa using find?_some h⟩

end FindRow

/-! ## Batches -/

namespace RowChange

theorem rowId_of_before {change : RowChange} {row : Row} (h : change.before = some row) :
    change.rowId = row.id := by
  simp [rowId, h]

end RowChange

/-- The change of a batch at an identity. -/
def changeAt (changes : List RowChange) (id : RowId) : Option RowChange :=
  changes.find? fun change => change.rowId = id

/-- The row that a batch adds at a new identity. -/
def newRow (change : RowChange) : Option Row :=
  match change.before with
  | none => change.after
  | some _ => none

/-- The rows after all changes of a batch at once. -/
def applyChanges (rows : List Row) (changes : List RowChange) : List Row :=
  rows.filterMap (fun row =>
    match changeAt changes row.id with
    | some change => change.after
    | none => some row) ++ changes.filterMap newRow

/-- A batch that fits the rows of a table. -/
structure ValidChanges (rows : List Row) (changes : List RowChange) : Prop where
  /-- Each identity is changed at most once. -/
  nodup : (changes.map RowChange.rowId).Nodup
  /-- Before images are the rows found. -/
  before_eq : ∀ change ∈ changes, change.before = findRow rows change.rowId
  /-- An update keeps the identity. -/
  after_id : ∀ change ∈ changes, ∀ row, change.after = some row → row.id = change.rowId

section Batches
variable {rows : List Row} {changes : List RowChange} {change : RowChange} {row : Row} {id : RowId}

theorem mem_of_changeAt (h : changeAt changes id = some change) :
    change ∈ changes ∧ change.rowId = id :=
  ⟨mem_of_find?_eq_some h, by simpa using find?_some h⟩

theorem changeAt_eq_none : changeAt changes id = none ↔ ∀ change ∈ changes, change.rowId ≠ id := by
  simp [changeAt, find?_eq_none]

theorem changeAt_of_mem (hn : (changes.map RowChange.rowId).Nodup) (h : change ∈ changes) :
    changeAt changes change.rowId = some change :=
  (find?_key_eq_some hn).mpr ⟨h, rfl⟩

section
variable (h : ValidChanges rows changes)
include h

/-- **Membership.** A row of the new table is an after image or untouched. -/
theorem mem_applyChanges : row ∈ applyChanges rows changes ↔
      (∃ change ∈ changes, change.after = some row) ∨
        (row ∈ rows ∧ ∀ change ∈ changes, change.rowId ≠ row.id) := by
  simp only [applyChanges, mem_append, mem_filterMap]
  constructor
  · rintro (⟨old, hold, hres⟩ | ⟨change, hc, hres⟩)
    · cases hat : changeAt changes old.id with
      | none =>
        simp only [hat, Option.some.injEq] at hres
        subst hres
        exact .inr ⟨hold, changeAt_eq_none.mp hat⟩
      | some change =>
        simp only [hat] at hres
        exact .inl ⟨change, (mem_of_changeAt hat).1, hres⟩
    · unfold newRow at hres
      cases hb : change.before with
      | none => exact .inl ⟨change, hc, by simpa [hb] using hres⟩
      | some old => simp [hb] at hres
  · rintro (⟨change, hc, hafter⟩ | ⟨hmem, hids⟩)
    · cases hb : change.before with
      | none => exact .inr ⟨change, hc, by simp [newRow, hb, hafter]⟩
      | some old =>
        have hfind := (h.before_eq change hc).symm.trans hb
        obtain ⟨hold, hid⟩ := mem_of_findRow hfind
        refine .inl ⟨old, hold, ?_⟩
        rw [hid, changeAt_of_mem h.nodup hc]
        exact hafter
    · exact .inl ⟨row, hmem, by rw [changeAt_eq_none.mpr hids]⟩

/-- Before images are rows of the old table. -/
theorem ValidChanges.mem_of_before (hc : change ∈ changes) (hb : change.before = some row) :
    row ∈ rows ∧ row.id = change.rowId :=
  mem_of_findRow ((h.before_eq change hc).symm.trans hb)

/-- A row of the old table at a changed identity is the before image. -/
theorem ValidChanges.before_of_mem (hasc : RowsAscending rows) (hc : change ∈ changes)
    (hrow : row ∈ rows) (hid : change.rowId = row.id) :
    change.before = some row := by
  rw [h.before_eq change hc]
  exact hasc.findRow_eq_some.mpr ⟨hrow, hid.symm⟩

theorem ValidChanges.eq_of_rowId_eq {a b : RowChange} (ha : a ∈ changes) (hb : b ∈ changes)
    (hid : a.rowId = b.rowId) : a = b :=
  inj_on_of_nodup_map h.nodup ha hb hid

/-- The new table has at most one row per identity. -/
theorem ValidChanges.eq_of_id_eq (hasc : RowsAscending rows) {a b : Row}
    (ha : a ∈ applyChanges rows changes) (hb : b ∈ applyChanges rows changes)
    (hid : a.id = b.id) : a = b := by
  obtain ⟨c, hc, hca⟩ | ⟨ha, hna⟩ := (mem_applyChanges h).mp ha
  · have hcid := h.after_id c hc a hca
    obtain ⟨d, hd, hdb⟩ | ⟨hb, hnb⟩ := (mem_applyChanges h).mp hb
    · obtain rfl : c = d := h.eq_of_rowId_eq hc hd (by rw [← hcid, ← h.after_id d hd b hdb, hid])
      exact Option.some.inj (hca.symm.trans hdb)
    · exact absurd (hcid.symm.trans hid) (hnb c hc)
  · obtain ⟨d, hd, hdb⟩ | ⟨hb, -⟩ := (mem_applyChanges h).mp hb
    · exact absurd ((h.after_id d hd b hdb).symm.trans hid.symm) (hna d hd)
    · exact hasc.eq_of_id_eq ha hb hid

end

theorem findRow_eq_some_of_inj (h : ∀ a ∈ rows, ∀ b ∈ rows, a.id = b.id → a = b) :
    findRow rows id = some row ↔ row ∈ rows ∧ row.id = id := by
  refine ⟨mem_of_findRow, fun ⟨hmem, hid⟩ => ?_⟩
  cases hf : findRow rows id with
  | none => exact absurd hid (by simpa using find?_eq_none.mp hf row hmem)
  | some found =>
    obtain ⟨hmem', hid'⟩ := mem_of_findRow hf
    rw [h row hmem found hmem' (hid.trans hid'.symm)]

/-- New rows beyond those of the table, in order, leave the rows in order. -/
theorem RowsAscending.applyChanges (hasc : RowsAscending rows) (h : ValidChanges rows changes)
    (hfresh : ∀ new ∈ changes.filterMap newRow, ∀ row ∈ rows, row.id < new.id)
    (hnew : RowsAscending (changes.filterMap newRow)) :
    RowsAscending (applyChanges rows changes) := by
  have hid : ∀ row row' : Row, (match changeAt changes row.id with
      | some change => change.after
      | none => some row) = some row' → row'.id = row.id := by
    intro row row' hrow'
    split at hrow'
    · next change hat =>
      obtain ⟨hmem, hid⟩ := mem_of_changeAt hat
      rw [h.after_id change hmem row' hrow', hid]
    · cases hrow'
      rfl
  refine pairwise_append.mpr ⟨hasc.filterMap _ fun a b hab a' ha' b' hb' => ?_, hnew, ?_⟩
  · rw [hid a a' ha', hid b b' hb']
    exact hab
  · intro row' hrow' new hmem
    obtain ⟨row, hrow, heq⟩ := mem_filterMap.mp hrow'
    rw [hid row row' heq]
    exact hfresh new hmem row hrow

theorem changeAt_cons : changeAt (change :: changes) id =
    if change.rowId = id then some change else changeAt changes id := by
  simp only [changeAt, find?_cons]
  split <;> simp_all

/-- The row at an identity after a batch. -/
theorem findRow_applyChanges (hasc : RowsAscending rows) (h : ValidChanges rows changes) :
    findRow (applyChanges rows changes) id =
      (changeAt changes id).elim (findRow rows id) RowChange.after := by
  refine Option.ext fun row => ?_
  rw [findRow_eq_some_of_inj fun a ha b hb => h.eq_of_id_eq hasc ha hb, mem_applyChanges h]
  cases hat : changeAt changes id with
  | none =>
    have hnone := changeAt_eq_none.mp hat
    rw [Option.elim_none, hasc.findRow_eq_some]
    constructor
    · rintro ⟨⟨change, hc, ha⟩ | ⟨hmem, -⟩, rfl⟩
      · exact absurd (h.after_id change hc row ha).symm (hnone change hc)
      · exact ⟨hmem, rfl⟩
    · rintro ⟨hmem, rfl⟩
      exact ⟨.inr ⟨hmem, hnone⟩, rfl⟩
  | some change =>
    obtain ⟨hc, rfl⟩ := mem_of_changeAt hat
    rw [Option.elim_some]
    constructor
    · rintro ⟨⟨other, ho, ha⟩ | ⟨-, hnot⟩, hid⟩
      · rwa [h.eq_of_rowId_eq hc ho (hid.symm.trans (h.after_id other ho row ha))]
      · exact absurd hid.symm (hnot change hc)
    · intro ha
      exact ⟨.inl ⟨change, hc, ha⟩, h.after_id change hc row ha⟩

end Batches

/-! ## Keys -/

section Keys
variable {κ : Type}

/-- The entries of the rows that have a key. -/
def entriesOf (key : Row → Result (Option κ)) (rows : List Row) : Set (κ × RowId) :=
  {e | ∃ row ∈ rows, key row = .ok (some e.1) ∧ row.id = e.2}

/-- The key of every row can be formed. -/
def Keyed (key : Row → Result (Option κ)) (rows : List Row) : Prop :=
  ∀ row ∈ rows, ∃ k, key row = .ok k

/-- At most one row has any key. -/
def KeyUnique (key : Row → Result (Option κ)) (rows : List Row) : Prop :=
  ∀ a ∈ rows, ∀ b ∈ rows, ∀ k, key a = .ok (some k) → key b = .ok (some k) → a = b

/-- The key of a row image, if there is one. -/
def imageOf (key : Row → Result (Option κ)) : Option Row → Result (Option κ)
  | none => .ok none
  | some row => key row

/-- The rows that a batch takes away, changed ones included. -/
def befores (changes : List RowChange) : List Row := changes.filterMap RowChange.before

/-- The rows that a batch puts there. -/
def afters (changes : List RowChange) : List Row := changes.filterMap RowChange.after

theorem befores_cons (change : RowChange) (changes : List RowChange) :
    befores (change :: changes) = change.before.toList ++ befores changes := by
  cases h : change.before <;> simp [befores, h]

theorem afters_cons (change : RowChange) (changes : List RowChange) :
    afters (change :: changes) = change.after.toList ++ afters changes := by
  cases h : change.after <;> simp [afters, h]

variable {key : Row → Result (Option κ)} {rows : List Row} {changes : List RowChange}
  {change : RowChange} {e : κ × RowId} {row : Row}

theorem keyed_cons : Keyed key (row :: rows) ↔ (∃ k, key row = .ok k) ∧ Keyed key rows :=
  forall_mem_cons

theorem entriesOf_cons : entriesOf key (row :: rows) =
      {e | key row = .ok (some e.1) ∧ row.id = e.2} ∪ entriesOf key rows := by
  ext e
  simp [entriesOf]

theorem entriesOf_append {other : List Row} :
    entriesOf key (rows ++ other) = entriesOf key rows ∪ entriesOf key other := by
  ext e
  simp only [entriesOf, mem_append, Set.mem_union, Set.mem_ofPred_eq, or_and_right,
    exists_or]

theorem entriesOf_singleton {k : κ} (hk : key row = .ok (some k)) :
    entriesOf key [row] = {(k, row.id)} := by
  ext ⟨k', id⟩
  simp [entriesOf, hk, eq_comm]

/-- Two identities share a key. -/
def Conflict (S : Set (κ × RowId)) : Prop := ∃ k a b, a ≠ b ∧ (k, a) ∈ S ∧ (k, b) ∈ S

/-- A conflict between entries is one between rows. -/
theorem not_conflict_entriesOf (h : ∀ a ∈ rows, ∀ b ∈ rows, a.id = b.id → a = b) :
    ¬ Conflict (entriesOf key rows) ↔ KeyUnique key rows := by
  constructor
  · intro hnot a ha b hb k hka hkb
    by_contra hne
    exact hnot ⟨k, a.id, b.id, fun hid => hne (h a ha b hb hid), ⟨a, ha, hka, rfl⟩,
      ⟨b, hb, hkb, rfl⟩⟩
  · rintro huniq ⟨k, _, _, hne, ⟨a, ha, hka, rfl⟩, ⟨b, hb, hkb, rfl⟩⟩
    exact hne (by rw [huniq a ha b hb k hka hkb])

theorem not_conflict_insert {S : Set (κ × RowId)} {k : κ} {id : RowId} (h : ¬ Conflict S)
    (hk : ∀ id, (k, id) ∉ S) : ¬ Conflict (insert (k, id) S) := by
  rintro ⟨k', a, b, hab, ha, hb⟩
  grind [Conflict]

theorem mem_entriesOf_befores : e ∈ entriesOf key (befores changes) ↔
    ∃ change ∈ changes, ∃ row, change.before = some row ∧ key row = .ok (some e.1) ∧
      row.id = e.2 := by
  simp only [entriesOf, befores, mem_filterMap, Set.mem_ofPred_eq]
  constructor
  · rintro ⟨row, ⟨change, hc, hb⟩, hk⟩
    exact ⟨change, hc, row, hb, hk⟩
  · rintro ⟨change, hc, row, hb, hk⟩
    exact ⟨row, ⟨change, hc, hb⟩, hk⟩

theorem mem_entriesOf_afters : e ∈ entriesOf key (afters changes) ↔
    ∃ change ∈ changes, ∃ row, change.after = some row ∧ key row = .ok (some e.1) ∧
      row.id = e.2 := by
  simp only [entriesOf, afters, mem_filterMap, Set.mem_ofPred_eq]
  constructor
  · rintro ⟨row, ⟨change, hc, ha⟩, hk⟩
    exact ⟨change, hc, row, ha, hk⟩
  · rintro ⟨change, hc, row, ha, hk⟩
    exact ⟨row, ⟨change, hc, ha⟩, hk⟩

/-- **The entries after a batch.** All before images leave, all after images enter. -/
theorem entriesOf_applyChanges (hasc : RowsAscending rows) (h : ValidChanges rows changes) :
    entriesOf key (applyChanges rows changes) =
      (entriesOf key rows \ entriesOf key (befores changes)) ∪ entriesOf key (afters changes) := by
  ext e
  rw [Set.mem_union, Set.mem_sdiff, mem_entriesOf_befores, mem_entriesOf_afters]
  constructor
  · rintro ⟨row, hrow, hk, hid⟩
    obtain ⟨change, hc, ha⟩ | ⟨hmem, hids⟩ := (mem_applyChanges h).mp hrow
    · exact .inr ⟨change, hc, row, ha, hk, hid⟩
    · refine .inl ⟨⟨row, hmem, hk, hid⟩, ?_⟩
      rintro ⟨change, hc, old, hb, -, hid'⟩
      exact hids change hc (by rw [RowChange.rowId_of_before hb, hid', hid])
  · rintro (⟨⟨row, hmem, hk, hid⟩, hnot⟩ | ⟨change, hc, row, ha, hk, hid⟩)
    · refine ⟨row, (mem_applyChanges h).mpr (.inr ⟨hmem, fun change hc hcid => ?_⟩), hk, hid⟩
      exact hnot ⟨change, hc, row, h.before_of_mem hasc hc hmem hcid, hk, hid⟩
    · exact ⟨row, (mem_applyChanges h).mpr (.inl ⟨change, hc, ha⟩), hk, hid⟩

/-! ## Moves -/

/-- The entries of a batch under the keys `old` that are not under the keys `new`. -/
def moved (old new : RowChange → Option κ) (changes : List RowChange) : Set (κ × RowId) :=
  {e | ∃ change ∈ changes, change.rowId = e.2 ∧ old change = some e.1 ∧ new change ≠ some e.1}

variable {old new : RowChange → Option κ} {k : κ}

theorem moved_cons : moved old new (change :: changes) =
    moved old new [change] ∪ moved old new changes := by
  ext e
  simp [moved]

theorem moved_eq_empty (h : ∀ k, old change = some k → new change = some k) :
    moved old new [change] = ∅ := by
  ext e
  simpa [moved] using fun _ => h e.1

theorem moved_eq_singleton (ho : old change = some k) (hn : new change ≠ some k) :
    moved old new [change] = {(k, change.rowId)} := by
  ext ⟨k', id⟩
  simp only [moved, mem_singleton, exists_eq_left, ho, Set.mem_ofPred_eq, Set.mem_singleton_iff,
    Prod.mk.injEq, Option.some.injEq]
  constructor
  · rintro ⟨rfl, rfl, -⟩
    exact ⟨rfl, rfl⟩
  · rintro ⟨rfl, rfl⟩
    exact ⟨rfl, rfl, hn⟩

theorem mem_moved (h : ValidChanges rows changes) (hc : change ∈ changes) :
    (k, change.rowId) ∈ moved old new changes ↔ old change = some k ∧ new change ≠ some k := by
  constructor
  · rintro ⟨other, ho, hid, hk⟩
    rwa [h.eq_of_rowId_eq ho hc hid] at hk
  · exact fun hk => ⟨change, hc, rfl, hk⟩

theorem mem_entriesOf_iff (h : ∀ a ∈ rows, ∀ b ∈ rows, a.id = b.id → a = b) {id : RowId} :
    (k, id) ∈ entriesOf key rows ↔ imageOf key (findRow rows id) = .ok (some k) := by
  constructor
  · rintro ⟨row, hmem, hk, hid⟩
    rw [(findRow_eq_some_of_inj h).mpr ⟨hmem, hid⟩]
    exact hk
  · intro hk
    cases hf : findRow rows id with
    | none => simp [imageOf, hf] at hk
    | some row =>
      obtain ⟨hmem, hid⟩ := mem_of_findRow hf
      exact ⟨row, hmem, by simpa [imageOf, hf] using hk, hid⟩

theorem mem_entriesOf_old (hasc : RowsAscending rows) (h : ValidChanges rows changes)
    (hc : change ∈ changes) (ho : imageOf key change.before = .ok (old change)) :
    (k, change.rowId) ∈ entriesOf key rows ↔ old change = some k := by
  rw [mem_entriesOf_iff fun a ha b hb => hasc.eq_of_id_eq ha hb, ← h.before_eq change hc, ho]
  simp

/-- **The entries after a batch**, where those that stay with their row are not touched. -/
theorem entriesOf_applyChanges_moved (hasc : RowsAscending rows) (h : ValidChanges rows changes)
    (ho : ∀ change ∈ changes, imageOf key change.before = .ok (old change))
    (hn : ∀ change ∈ changes, imageOf key change.after = .ok (new change)) :
    entriesOf key (applyChanges rows changes) =
      (entriesOf key rows \ moved old new changes) ∪ moved new old changes := by
  ext ⟨k, id⟩
  rw [mem_entriesOf_iff fun a ha b hb => h.eq_of_id_eq hasc ha hb, findRow_applyChanges hasc h,
    Set.mem_union, Set.mem_sdiff]
  cases hat : changeAt changes id with
  | none =>
    have hnone (old new : RowChange → Option κ) : (k, id) ∉ moved old new changes :=
      fun ⟨change, hc, hid, _⟩ => changeAt_eq_none.mp hat change hc hid
    simp [hnone, mem_entriesOf_iff fun a ha b hb => hasc.eq_of_id_eq ha hb]
  | some change =>
    obtain ⟨hc, rfl⟩ := mem_of_changeAt hat
    rw [Option.elim_some, hn change hc, mem_moved h hc, mem_moved h hc,
      mem_entriesOf_old hasc h hc (ho change hc), Except.ok.injEq]
    tauto

end Keys
end UnionId
