import UnionId.Db.Maintain
import UnionId.Db.Rows

/-!
# Postings follow the rows

A posting is right when it represents the entries of the covered rows. Rebuilding
an index gives such a posting, and the incremental maintenance of a batch keeps
it: it either yields the posting of the final rows or finds two of them with one
key under a constraint.

## Main results

* `buildIndex_represents` — a rebuilt posting represents the rows.
* `foldlM_removeBefore`, `foldlM_insertAfter` — the two passes over one index.
* `candidateIndexes_spec` — both passes over all indexes of a table.
-/
namespace UnionId

open Lib Std List

def rowKey (catalog : Catalog) (schema : List Column) (name : String)
    (definition : IndexDefinition) (row : Row) : Result (Option (List UInt8)) :=
  includedKey catalog schema name definition row.fields

/-! ## Rebuilding -/

section Build
variable {catalog : Catalog} {schema : List Column} {name : String} {definition : IndexDefinition}

theorem postRows_represents {rows : List Row} (hasc : RowsAscending rows)
    {posting result : IndexPosting} {S : Set (List UInt8 × RowId)} (hp : posting.Represents S)
    (hS : ∀ e ∈ S, ∀ row ∈ rows, e.2 < row.id)
    (h : postRows catalog schema name definition posting rows = .ok result) :
    Keyed (rowKey catalog schema name definition) rows ∧
      result.Represents (S ∪ entriesOf (rowKey catalog schema name definition) rows) := by
  induction rows generalizing posting S with
  | nil =>
    cases h
    exact ⟨by simp [Keyed], by simpa [entriesOf] using hp⟩
  | cons row rows ih =>
    obtain ⟨hlt, hasc⟩ := pairwise_cons.mp hasc
    obtain ⟨k, hk, h⟩ := of_bind h
    cases k with
    | none =>
      obtain ⟨hkd, hrep⟩ := ih hasc hp (fun e he r hr => hS e he r (mem_cons_of_mem _ hr)) h
      refine ⟨keyed_cons.mpr ⟨⟨none, hk⟩, hkd⟩, ?_⟩
      convert hrep using 1
      rw [entriesOf_cons]
      ext e
      simp [rowKey, hk]
    | some k =>
      have hpush : (posting.pushBack k row.id).Represents (insert (k, row.id) S) :=
        hp.pushBack fun i hi => hS (k, i) hi row mem_cons_self
      obtain ⟨hkd, hrep⟩ := ih hasc hpush (by
        rintro e (rfl | he) r hr
        · exact hlt r hr
        · exact hS e he r (mem_cons_of_mem _ hr)) h
      refine ⟨keyed_cons.mpr ⟨⟨some k, hk⟩, hkd⟩, ?_⟩
      convert hrep using 1
      rw [entriesOf_cons]
      ext ⟨k', i⟩
      simp only [rowKey, hk, Set.mem_union, Set.mem_insert_iff, Set.mem_ofPred_eq, Prod.mk.injEq,
        Except.ok.injEq, Option.some.injEq]
      tauto

theorem postRows_of_keyed {rows : List Row}
    (hk : Keyed (rowKey catalog schema name definition) rows) (posting : IndexPosting) :
    ∃ result, postRows catalog schema name definition posting rows = .ok result := by
  induction rows generalizing posting with
  | nil => exact ⟨posting, rfl⟩
  | cons row rows ih =>
    obtain ⟨⟨k, hrow⟩, hk⟩ := keyed_cons.mp hk
    have ih := ih hk
    cases k with
    | none =>
      obtain ⟨result, hr⟩ := ih posting
      exact ⟨result, bind_eq_ok.mpr ⟨none, hrow, hr⟩⟩
    | some k =>
      obtain ⟨result, hr⟩ := ih (posting.pushBack k row.id)
      exact ⟨result, bind_eq_ok.mpr ⟨some k, hrow, hr⟩⟩

end Build

namespace Database

variable {db : Database} {name : String} {table : Table} {definition : IndexDefinition}

/-- **A rebuilt posting represents the rows.** -/
theorem buildIndex_represents (ht : db.table name = .ok table) (hasc : RowsAscending table.rows)
    {posting : IndexPosting} (h : db.buildIndex name definition = .ok posting) :
    Keyed (rowKey db.catalog table.schema name definition) table.rows ∧
      posting.Represents
        (entriesOf (rowKey db.catalog table.schema name definition) table.rows) := by
  simp only [buildIndex, ht, ok_bind] at h
  simpa using postRows_represents hasc Posting.represents_empty (by simp) h

/-- A posting that represents the rows is the rebuilt one. -/
theorem buildIndex_eq_ok (ht : db.table name = .ok table) (hasc : RowsAscending table.rows)
    (hk : Keyed (rowKey db.catalog table.schema name definition) table.rows)
    {posting : IndexPosting} (hp : posting.Represents
      (entriesOf (rowKey db.catalog table.schema name definition) table.rows)) :
    db.buildIndex name definition = .ok posting := by
  obtain ⟨result, hr⟩ := postRows_of_keyed hk ∅
  have hbuild : db.buildIndex name definition = .ok result := by
    simpa only [buildIndex, ht, ok_bind] using hr
  rw [hbuild, (buildIndex_represents ht hasc hbuild).2.unique hp]

/-! ## One index under a batch -/

theorem imageKey_eq (ht : db.table name = .ok table) (image : Option Row) :
    db.imageKey name definition image =
      imageOf (rowKey db.catalog table.schema name definition) image := by
  cases image with
  | none => rfl
  | some row => exact includedIndexTupleKey_of_table ht definition row.fields

section Batch
variable [External] {key : Row → Result (Option (List UInt8))} {posting : IndexPosting}
  {S : Set (List UInt8 × RowId)} {change : RowChange} {changes : List RowChange}
  {old new : RowChange → Option (List UInt8)} {primaryKey : Option String}

/-- Entries were put in: they are all there, or two identities share a key of a constraint. -/
def Inserted (name : String) (definition : IndexDefinition) (primaryKey : Option String)
    (S : Set (List UInt8 × RowId)) (out : Result IndexPosting) : Prop :=
  (∃ posting, out = .ok posting ∧ posting.Represents S ∧
    (constrains definition primaryKey → ¬ Conflict S)) ∨
  constrains definition primaryKey ∧ out = .error (duplicateKey name definition primaryKey) ∧
    Conflict S

variable (hkey : ∀ image, db.imageKey name definition image = imageOf key image)
include hkey

/-- Taking one before image out of a posting. -/
theorem removeBefore_spec (ho : imageOf key change.before = .ok (old change))
    (hn : imageOf key change.after = .ok (new change)) (hp : posting.Represents S)
    (hmem : ∀ k, old change = some k → (k, change.rowId) ∈ S) :
    ∃ result, db.removeBefore name definition posting change = .ok result ∧
      result.Represents (S \ moved old new [change]) := by
  have hstay (h : ∀ k, old change = some k → new change = some k) :
      posting.Represents (S \ moved old new [change]) := by
    rwa [moved_eq_empty h, Set.sdiff_empty]
  unfold removeBefore
  cases hb : change.before with
  | none =>
    have hk : old change = none := by simpa [imageOf, hb] using ho.symm
    exact ⟨posting, rfl, hstay (by simp [hk])⟩
  | some before =>
    rw [hb] at ho
    simp only [hkey, ho, hn, ok_bind]
    cases hk : old change with
    | none => exact ⟨posting, rfl, hstay (by simp [hk])⟩
    | some k =>
      by_cases hsame : new change = some k
      · exact ⟨posting, by simp [hsame], hstay (by simp [hk, hsame])⟩
      · have hin := hp.mem_idsAt.mpr (hmem k hk)
        rw [RowChange.rowId_of_before hb] at hin
        refine ⟨posting.remove k before.id, by simp [hsame, hin], ?_⟩
        rw [moved_eq_singleton hk hsame, RowChange.rowId_of_before hb]
        exact hp.remove

/-- Putting one after image into a posting. -/
theorem insertAfter_spec (ho : imageOf key change.before = .ok (old change))
    (hn : imageOf key change.after = .ok (new change))
    (hid : ∀ row, change.after = some row → row.id = change.rowId) (hp : posting.Represents S)
    (hfresh : ∀ k, new change = some k → old change ≠ some k → (k, change.rowId) ∉ S)
    (hS : constrains definition primaryKey → ¬ Conflict S) :
    Inserted name definition primaryKey (S ∪ moved new old [change])
      (db.insertAfter name primaryKey definition posting change) := by
  have hstay (h : ∀ k, new change = some k → old change = some k) :
      Inserted name definition primaryKey (S ∪ moved new old [change]) (.ok posting) := by
    rw [moved_eq_empty h, Set.union_empty]
    exact .inl ⟨posting, rfl, hp, hS⟩
  unfold insertAfter
  cases ha : change.after with
  | none =>
    have hk : new change = none := by simpa [imageOf, ha] using hn.symm
    exact hstay (by simp [hk])
  | some after =>
    rw [ha] at hn
    simp only [hkey, ho, hn, ok_bind]
    cases hk : new change with
    | none => exact hstay (by simp [hk])
    | some k =>
      by_cases hsame : old change = some k
      · simpa [hsame] using hstay (by simp [hk, hsame])
      · have hnot := hfresh k hk hsame
        rw [← hid after ha] at hnot
        rw [moved_eq_singleton hk hsame, ← hid after ha, Set.union_singleton]
        dsimp only
        rw [if_neg hsame, if_neg (mt hp.mem_idsAt.mp hnot)]
        by_cases hdup : (constrains definition primaryKey && !(posting.idsAt k).isEmpty) = true
        · rw [if_pos hdup]
          obtain ⟨hc, hne⟩ := Bool.and_eq_true_iff.mp hdup
          obtain ⟨id, hin⟩ := exists_mem_of_ne_nil (posting.idsAt k) (by simpa using hne)
          have hin := hp.mem_idsAt.mp hin
          exact .inr ⟨hc, rfl, k, after.id, id, fun heq => hnot (heq ▸ hin),
            Set.mem_insert _ _, Set.mem_insert_of_mem _ hin⟩
        · rw [if_neg hdup]
          refine .inl ⟨_, rfl, hp.insert, fun hc => not_conflict_insert (hS hc) fun id hin => ?_⟩
          rw [← hp.mem_idsAt] at hin
          have hnil : posting.idsAt k = [] := by simpa [hc] using hdup
          rw [hnil] at hin
          cases hin

/-- **The removal pass.** Every entry that leaves is taken out. -/
theorem foldlM_removeBefore (hnodup : (changes.map RowChange.rowId).Nodup)
    (ho : ∀ change ∈ changes, imageOf key change.before = .ok (old change))
    (hn : ∀ change ∈ changes, imageOf key change.after = .ok (new change))
    (hp : posting.Represents S)
    (hmem : ∀ change ∈ changes, ∀ k, old change = some k → (k, change.rowId) ∈ S) :
    ∃ result, changes.foldlM (db.removeBefore name definition) posting = .ok result ∧
      result.Represents (S \ moved old new changes) := by
  induction changes generalizing posting S with
  | nil => exact ⟨posting, rfl, by simpa [moved] using hp⟩
  | cons change changes ih =>
    obtain ⟨hnot, hnodup⟩ := nodup_cons.mp hnodup
    rw [forall_mem_cons] at ho hn hmem
    obtain ⟨posting', hstep, hp'⟩ := removeBefore_spec hkey ho.1 hn.1 hp hmem.1
    rw [moved_cons, ← Set.sdiff_sdiff, foldlM_cons, hstep]
    -- entries of other identities are still there
    refine ih hnodup ho.2 hn.2 hp' fun other hc k hk => ⟨hmem.2 other hc k hk, ?_⟩
    rintro ⟨_, hsame, hid, -⟩
    cases mem_singleton.mp hsame
    exact hnot (mem_map.mpr ⟨other, hc, hid.symm⟩)

/-- **The insertion pass.** Every entry that enters is put in, or a constraint is broken. -/
theorem foldlM_insertAfter (hnodup : (changes.map RowChange.rowId).Nodup)
    (ho : ∀ change ∈ changes, imageOf key change.before = .ok (old change))
    (hn : ∀ change ∈ changes, imageOf key change.after = .ok (new change))
    (hid : ∀ change ∈ changes, ∀ row, change.after = some row → row.id = change.rowId)
    (hp : posting.Represents S) (hfresh : ∀ change ∈ changes, ∀ k, new change = some k →
      old change ≠ some k → (k, change.rowId) ∉ S)
    (hS : constrains definition primaryKey → ¬ Conflict S) :
    Inserted name definition primaryKey (S ∪ moved new old changes)
      (changes.foldlM (db.insertAfter name primaryKey definition) posting) := by
  induction changes generalizing posting S with
  | nil => exact .inl ⟨posting, rfl, by simpa [moved] using hp, by simpa [moved] using hS⟩
  | cons change changes ih =>
    obtain ⟨hnot, hnodup⟩ := nodup_cons.mp hnodup
    rw [forall_mem_cons] at ho hn hid hfresh
    rw [moved_cons, ← Set.union_assoc, foldlM_cons]
    obtain ⟨posting', hstep, hp', hS'⟩ | ⟨hc, hstep, k, a, b, hab, ha, hb⟩ :=
      insertAfter_spec hkey ho.1 hn.1 hid.1 hp hfresh.1 hS
    · rw [hstep]
      -- entries of other identities are still new
      refine ih hnodup ho.2 hn.2 hid.2 hp' (fun other hc k hk hne => ?_) hS'
      rintro (hin | ⟨_, hsame, hid, -⟩)
      · exact hfresh.2 other hc k hk hne hin
      · cases mem_singleton.mp hsame
        exact hnot (mem_map.mpr ⟨other, hc, hid.symm⟩)
    · exact .inr ⟨hc, by rw [hstep]; rfl, k, a, b, hab, .inl ha, .inl hb⟩

/-- **One index under a batch.** Both passes yield the posting of the final rows,
or the final rows break a constraint. -/
theorem foldlM_batch {rows : List Row} (hasc : RowsAscending rows)
    (hv : ValidChanges rows changes) (hk : Keyed key rows)
    (hafter : ∀ change ∈ changes, ∃ k, imageOf key change.after = .ok k)
    (hp : posting.Represents (entriesOf key rows))
    (huniq : constrains definition primaryKey → KeyUnique key rows) :
    ∃ removed, changes.foldlM (db.removeBefore name definition) posting = .ok removed ∧
      ((∃ result, changes.foldlM (db.insertAfter name primaryKey definition) removed = .ok result ∧
          result.Represents (entriesOf key (applyChanges rows changes)) ∧
          (constrains definition primaryKey → KeyUnique key (applyChanges rows changes))) ∨
        (constrains definition primaryKey ∧
          changes.foldlM (db.insertAfter name primaryKey definition) removed =
            .error (duplicateKey name definition primaryKey) ∧
          ¬ KeyUnique key (applyChanges rows changes))) := by
  have hbefore : ∀ change ∈ changes, ∃ k, imageOf key change.before = .ok k := by
    intro change hc
    cases hb : change.before with
    | none => exact ⟨none, rfl⟩
    | some row => exact hk row (hv.mem_of_before hc hb).1
  choose! old ho using hbefore
  choose! new hn using hafter
  have hin (change) (hc : change ∈ changes) (k) :=
    mem_entriesOf_old (k := k) hasc hv hc (ho change hc)
  have hconf : ¬ Conflict (entriesOf key (applyChanges rows changes)) ↔ _ :=
    not_conflict_entriesOf fun a ha b hb => hv.eq_of_id_eq hasc ha hb
  obtain ⟨removed, hrem, hrep⟩ := foldlM_removeBefore hkey hv.nodup ho hn hp
    fun change hc k => (hin change hc k).mpr
  refine ⟨removed, hrem, ?_⟩
  have hins := foldlM_insertAfter hkey hv.nodup ho hn hv.after_id hrep
    (fun change hc k _ hne hmem => hne ((hin change hc k).mp hmem.1))
    fun hcon ⟨k, a, b, hab, ha, hb⟩ =>
      (not_conflict_entriesOf fun a ha b hb => hasc.eq_of_id_eq ha hb).mpr (huniq hcon)
        ⟨k, a, b, hab, ha.1, hb.1⟩
  rw [← entriesOf_applyChanges_moved hasc hv ho hn] at hins
  rwa [Inserted, hconf, ← not_not (a := Conflict _), hconf] at hins

end Batch

/-! ## All indexes of a table -/

section Table
variable [External]

/-- An update of every posting succeeds for all definitions or stops at one. -/
theorem updatePostings_spec (name : String)
    (update : IndexDefinition → IndexPosting → Result IndexPosting)
    (Q : IndexDefinition → IndexPosting → Prop) (R : IndexDefinition → Error → Prop)
    {definitions : List IndexDefinition} (hn : (definitions.map fun d => d.shapeKey).Nodup)
    (indexes : TableIndexes)
    (h : ∀ d ∈ definitions, ∃ posting, indexes[d.shapeKey]? = some posting ∧
      ((∃ result, update d posting = .ok result ∧ Q d result) ∨
        ∃ error, update d posting = .error error ∧ R d error)) :
    (∃ result, updatePostings name update indexes definitions = .ok result ∧
      (∀ d ∈ definitions, ∃ posting, result[d.shapeKey]? = some posting ∧ Q d posting) ∧
      ∀ shape, (∀ d ∈ definitions, d.shapeKey ≠ shape) → result[shape]? = indexes[shape]?) ∨
    ∃ d ∈ definitions, ∃ error,
      updatePostings name update indexes definitions = .error error ∧ R d error := by
  induction definitions generalizing indexes with
  | nil => exact .inl ⟨indexes, rfl, by simp, by simp⟩
  | cons d definitions ih =>
    rw [map_cons, nodup_cons] at hn
    obtain ⟨hnot, hn⟩ := hn
    rw [forall_mem_cons] at h
    obtain ⟨⟨posting, hlook, hd⟩, hrest⟩ := h
    simp only [updatePostings, hlook]
    obtain ⟨result, hu, hQ⟩ | ⟨error, hu, hR⟩ := hd
    · rw [hu, ok_bind]
      have hother : ∀ d' ∈ definitions, d.shapeKey ≠ d'.shapeKey := fun d' hd' heq =>
        hnot (mem_map.mpr ⟨d', hd', heq.symm⟩)
      obtain ⟨final, hf, hall, hsame⟩ | ⟨d', hd', error, herr, hR⟩ :=
        ih hn (indexes.insert d.shapeKey result) (fun d' hd' => by
          obtain ⟨p, hp, hres⟩ := hrest d' hd'
          refine ⟨p, ?_, hres⟩
          rw [ExtTreeMap.getElem?_insert, if_neg (by simpa using hother d' hd'), hp])
      · refine .inl ⟨final, hf, ?_, ?_⟩
        · rw [forall_mem_cons]
          refine ⟨⟨result, ?_, hQ⟩, hall⟩
          rw [hsame d.shapeKey fun d' hd' heq => hother d' hd' heq.symm]
          simp
        · intro shape hshape
          rw [forall_mem_cons] at hshape
          rw [hsame shape hshape.2, ExtTreeMap.getElem?_insert, if_neg (by simpa using hshape.1)]
      · exact .inr ⟨d', mem_cons_of_mem _ hd', error, herr, hR⟩
    · exact .inr ⟨d, mem_cons_self, error, by rw [hu]; rfl, hR⟩

/-- The indexes of a table follow its rows: definitions are listed under their
shapes, every covered row has a key, every posting represents the rows, and no
constraint is broken. -/
structure IndexesFollow (db : Database) (name : String) (table : Table) : Prop where
  shapes : ∀ (shape : String) (d : IndexDefinition), (db.definitions name)[shape]? = some d →
    d.shapeKey = shape
  keyed : ∀ d ∈ valuesOf (db.definitions name),
    Keyed (rowKey db.catalog table.schema name d) table.rows
  postings : ∀ d ∈ valuesOf (db.definitions name), ∃ posting,
    (db.tableIndexes name)[d.shapeKey]? = some posting ∧
      posting.Represents (entriesOf (rowKey db.catalog table.schema name d) table.rows)
  unique : ∀ d ∈ valuesOf (db.definitions name), constrains d table.primaryKey →
    KeyUnique (rowKey db.catalog table.schema name d) table.rows

/-- The keys of all rows that a batch puts there can be formed. -/
def BatchKeyed (db : Database) (name : String) (table : Table) (changes : List RowChange) : Prop :=
  ∀ d ∈ valuesOf (db.definitions name), ∀ change ∈ changes,
    ∃ k, imageOf (rowKey db.catalog table.schema name d) change.after = .ok k

variable {changes : List RowChange}

omit [External] in
/-- A batch that fits the rows passes its check when its keys can be formed. -/
theorem forM_checkChange (ht : db.table name = .ok table) (hv : ValidChanges table.rows changes) :
    changes.forM (db.checkChange name (valuesOf (db.definitions name))) = .ok ⟨⟩ ↔
      BatchKeyed db name table changes := by
  have hone : ∀ change ∈ changes, db.checkChange name (valuesOf (db.definitions name)) change =
      (valuesOf (db.definitions name)).forM fun d => discard (db.imageKey name d change.after) := by
    intro change hc
    unfold checkChange
    split
    · rename_i before after hb ha
      have hid : before.id = after.id := by
        rw [hv.after_id change hc after ha, RowChange.rowId_of_before hb]
      rw [if_neg (by simpa using hid), ha]
    · rfl
  rw [forM_eq_ok_iff, BatchKeyed, forall₂_comm]
  refine forall₂_congr fun change hc => ?_
  rw [hone change hc, forM_eq_ok_iff]
  refine forall₂_congr fun d _ => ?_
  rw [imageKey_eq ht]
  exact map_eq_ok.trans (by simp)

/-- The posting of an index over the final rows of a batch, with its constraint. -/
def FinalPosting (db : Database) (name : String) (table : Table) (changes : List RowChange)
    (d : IndexDefinition) (posting : IndexPosting) : Prop :=
  posting.Represents (entriesOf (rowKey db.catalog table.schema name d)
    (applyChanges table.rows changes)) ∧
  (constrains d table.primaryKey →
    KeyUnique (rowKey db.catalog table.schema name d) (applyChanges table.rows changes))

/-- The final rows of a batch break the constraint of an index. -/
def Breaks (db : Database) (name : String) (table : Table) (changes : List RowChange)
    (d : IndexDefinition) : Prop :=
  constrains d table.primaryKey ∧
    ¬ KeyUnique (rowKey db.catalog table.schema name d) (applyChanges table.rows changes)

/-- **All indexes under a batch.** The candidate postings are those of the final
rows, or the final rows break the constraint that is reported. -/
theorem candidateIndexes_spec (ht : db.table name = .ok table)
    (hasc : RowsAscending table.rows) (hf : IndexesFollow db name table)
    (hv : ValidChanges table.rows changes) (hk : BatchKeyed db name table changes) :
    (∃ indexes, db.candidateIndexes name table.primaryKey changes = .ok indexes ∧
      ∀ d ∈ valuesOf (db.definitions name), ∃ posting, indexes[d.shapeKey]? = some posting ∧
        FinalPosting db name table changes d posting) ∨
    ∃ d ∈ valuesOf (db.definitions name), Breaks db name table changes d ∧
      db.candidateIndexes name table.primaryKey changes =
        .error (duplicateKey name d table.primaryKey) := by
  have hn := nodup_map_valuesOf hf.shapes
  have hcheck := (forM_checkChange ht hv).mpr hk
  -- the removal pass cannot fail; what it leaves decides the insertion pass
  obtain ⟨removed, hrem, hpass, -⟩ | ⟨d, hd, error, -, hfalse⟩ := updatePostings_spec name
    (fun d posting => changes.foldlM (db.removeBefore name d) posting)
    (fun d removed =>
      (∃ result, changes.foldlM (db.insertAfter name table.primaryKey d) removed = .ok result ∧
        FinalPosting db name table changes d result) ∨
      (changes.foldlM (db.insertAfter name table.primaryKey d) removed =
        .error (duplicateKey name d table.primaryKey) ∧ Breaks db name table changes d))
    (fun _ _ => False) hn (db.tableIndexes name) (by
      intro d hd
      obtain ⟨posting, hlook, hrep⟩ := hf.postings d hd
      obtain ⟨removed, hrem, ⟨result, hres, hfin⟩ | ⟨hcon, herr, hnot⟩⟩ :=
        foldlM_batch (imageKey_eq ht) hasc hv (hf.keyed d hd)
          (hk d hd) hrep (hf.unique d hd)
      · exact ⟨posting, hlook, .inl ⟨removed, hrem, .inl ⟨result, hres, hfin⟩⟩⟩
      · exact ⟨posting, hlook, .inl ⟨removed, hrem, .inr ⟨herr, hcon, hnot⟩⟩⟩)
  · have hcand : db.candidateIndexes name table.primaryKey changes =
        updatePostings name (fun d posting =>
          changes.foldlM (db.insertAfter name table.primaryKey d) posting) removed
          (valuesOf (db.definitions name)) := by
      simp only [candidateIndexes, hcheck, ok_bind, hrem]
    rw [hcand]
    obtain ⟨indexes, hok, hall, -⟩ | ⟨d, hd, error, herr, rfl, hbreak⟩ := updatePostings_spec name
      (fun d posting => changes.foldlM (db.insertAfter name table.primaryKey d) posting)
      (FinalPosting db name table changes)
      (fun d error => error = duplicateKey name d table.primaryKey ∧
        Breaks db name table changes d) hn removed (by
        intro d hd
        obtain ⟨posting, hlook, ⟨result, hres, hfin⟩ | ⟨herr, hbreak⟩⟩ := hpass d hd
        · exact ⟨posting, hlook, .inl ⟨result, hres, hfin⟩⟩
        · exact ⟨posting, hlook, .inr ⟨_, herr, rfl, hbreak⟩⟩)
    · exact .inl ⟨indexes, hok, hall⟩
    · exact .inr ⟨d, hd, hbreak, herr⟩
  · exact absurd hfalse id

end Table
end Database
end UnionId
