import UnionId.Db.ReferenceExact

/-!
# Runs of row changes

Batches are applied one after another, to any tables. Each leaves the indexes, the reverse
postings and the constraints in step with the rows, and the write set is the net difference
of the whole run.

## Main results

* `candidateIndexes_exact` — a batch is refused only for a reason.
* `run_ready` — postings are what a rebuild over the final rows finds.
* `run_scanIndex` — scans find exactly the rows in their bounds.
* `run_netWrites` — the write set has the first and the last row of each identity.
-/
namespace UnionId

open Lib Std List Database

/-- A batch that fits the rows of its table is applied. New rows have identities beyond those
of the table, in ascending order. -/
structure Database.Applies [External] (db : Database) (name : String) (table : Table)
    (changes : List RowChange) (db' : Database) : Prop where
  found : db.objects[name]? = some table
  valid : ValidChanges table.rows changes
  fresh : ∀ new ∈ changes.filterMap newRow, ∀ row ∈ table.rows, row.id < new.id
  ordered : RowsAscending (changes.filterMap newRow)
  replaced : db.replaceRowsAndIndexes name (applyChanges table.rows changes) changes = .ok db'

/-- What a batch leaves in the write set at an identity. -/
theorem lookup_recordRowChanges {changes : List RowChange}
    (hn : (changes.map RowChange.rowId).Nodup) (writes : LogicalWriteSet) (name : String)
    (k : String × RowId) : (writes.recordRowChanges name changes).rows.lookup k =
      if k.1 = name then (changeAt changes k.2).elim (writes.rows.lookup k) fun change =>
        (writes.rows.lookup k).elim (some change) (LogicalWriteSet.mergeRowChange change.after)
      else writes.rows.lookup k := by
  induction changes generalizing writes with
  | nil => simp [LogicalWriteSet.recordRowChanges, changeAt]
  | cons change changes ih =>
    obtain ⟨hnot, hn⟩ := nodup_cons.mp hn
    have hother : changeAt changes change.rowId = none :=
      changeAt_eq_none.mpr fun other ho heq => hnot (mem_map.mpr ⟨other, ho, heq⟩)
    let next := Coalesce.record writes.rows (name, change.rowId) change
      (LogicalWriteSet.mergeRowChange change.after)
    refine (ih hn { writes with rows := next }).trans ?_
    simp only [next, Coalesce.lookup_record]
    by_cases hk : k = (name, change.rowId)
    · subst hk
      simp [hother, changeAt_cons]
    · rw [if_neg hk]
      by_cases hname : k.1 = name
      · have hid : change.rowId ≠ k.2 := fun heq => hk (Prod.ext hname heq.symm)
        simp [changeAt_cons, hid]
      · simp [hname]

/-- The row of a table at an identity. -/
def Database.rowAt (db : Database) (k : String × RowId) : Option Row :=
  db.objects[k.1]?.bind fun table => findRow table.rows k.2

/-- Some batch has changed the row at an identity. -/
def Touched (batches : List (String × List RowChange)) (k : String × RowId) : Prop :=
  ∃ batch ∈ batches, batch.1 = k.1 ∧ ∃ change ∈ batch.2, change.rowId = k.2

/-- The entry of the write set for a row that was `init` and is `row` now: it has these two
images, and it is there if the row was changed and either image exists. -/
structure NetEntry (init row : Option Row) (touched : Prop) (entry : Option RowChange) : Prop where
  images : ∀ change, entry = some change → change.before = init ∧ change.after = row
  unchanged : entry = none → row = init
  present : entry.isSome = true ↔ touched ∧ (init.isSome = true ∨ row.isSome = true)

/-- The write set is the net difference of the rows. -/
def Database.NetWrites (init : String × RowId → Option Row)
    (batches : List (String × List RowChange)) (db : Database) : Prop :=
  ∀ k, NetEntry (init k) (db.rowAt k) (Touched batches k) (db.pendingWrites.rows.lookup k)

/-- Another change of the row. -/
theorem NetEntry.record {init row : Option Row} {touched : Prop} {entry : Option RowChange}
    (h : NetEntry init row touched entry) {change : RowChange} (hbefore : change.before = row) :
    NetEntry init change.after True
      (entry.elim (some change) (LogicalWriteSet.mergeRowChange change.after)) := by
  cases entry with
  | none =>
    obtain rfl := h.unchanged rfl
    refine ⟨fun _ heq => ?_, by simp, by simpa [← hbefore] using change.present⟩
    cases heq
    exact ⟨hbefore, rfl⟩
  | some entry =>
    obtain ⟨rfl, -⟩ := h.images entry rfl
    rw [Option.elim_some, LogicalWriteSet.mergeRowChange]
    split
    · next hsome =>
      refine ⟨fun _ heq => ?_, by simp, by simpa using hsome⟩
      cases heq
      exact ⟨rfl, rfl⟩
    · next hnone =>
      -- inserted and deleted within the run
      simp only [Option.isSome_or, Bool.or_eq_true, not_or, Bool.not_eq_true,
        Option.isSome_eq_false_iff, Option.isNone_iff_eq_none] at hnone
      exact ⟨by simp, fun _ => by rw [hnone.1, hnone.2], by simp [hnone]⟩

theorem touched_append {batches : List (String × List RowChange)} {name : String}
    {changes : List RowChange} {k : String × RowId} : Touched (batches ++ [(name, changes)]) k ↔
      Touched batches k ∨ k.1 = name ∧ changeAt changes k.2 ≠ none := by
  simp only [Touched, mem_append, mem_singleton, or_and_right, exists_or, exists_eq_left, ne_eq,
    changeAt_eq_none, not_forall, not_not, exists_prop, @eq_comm _ name]

section Step
variable [External] {db db' : Database} {name : String} {table : Table} {changes : List RowChange}

/-- **The indexes refuse a batch only for a reason**: some key cannot be formed, or the final rows
break a constraint, and then the error is that of such a constraint. -/
theorem candidateIndexes_exact (hr : ReferencesReady db) (ht : db.objects[name]? = some table)
    (hv : ValidChanges table.rows changes) :
    ((∃ indexes, db.candidateIndexes name table.primaryKey changes = .ok indexes) ↔
      db.BatchKeyed name table changes ∧
        ∀ d ∈ valuesOf (db.definitions name), ¬ db.Breaks name table changes d) ∧
    ∀ e, db.BatchKeyed name table changes →
      db.candidateIndexes name table.primaryKey changes = .error e →
      ∃ d ∈ valuesOf (db.definitions name), db.Breaks name table changes d ∧
        e = duplicateKey name d table.primaryKey := by
  have hspec := candidateIndexes_spec (table_eq_ok.mpr ht)
    (hr.ascending name table ht) (hr.follow name table ht) hv
  refine ⟨⟨?_, ?_⟩, fun e hk h => ?_⟩
  · rintro ⟨indexes, h⟩
    have hk := (forM_checkChange (table_eq_ok.mpr ht) hv).mp
      (of_bind h).choose_spec.1
    refine ⟨hk, fun d hd hbreaks => ?_⟩
    obtain ⟨_, -, hfinal⟩ | ⟨_, -, -, herror⟩ := hspec hk
    · obtain ⟨_, -, -, hunique⟩ := hfinal d hd
      exact hbreaks.2 (hunique hbreaks.1)
    · cases h.symm.trans herror
  · rintro ⟨hk, hnot⟩
    obtain ⟨indexes, h, -⟩ | ⟨d, hd, hbreaks, -⟩ := hspec hk
    · exact ⟨indexes, h⟩
    · exact absurd hbreaks (hnot d hd)
  · obtain ⟨_, hok, -⟩ | ⟨d, hd, hbreaks, herror⟩ := hspec hk
    · cases h.symm.trans hok
    · exact ⟨d, hd, hbreaks, Except.error.inj (h.symm.trans herror)⟩

omit [External] in
theorem candidateIndexes_exact_insert : ∃ (_ : External) (indexes : TableIndexes),
    selfReferenced.candidateIndexes "t" textTable.primaryKey (textBatch [1]) = .ok indexes := by
  let _ : External := ⟨fun _ => 0, fun _ => 0, fun _ => ""⟩
  have hbound : ∀ n ∈ [1], n ≤ 65000 := by decide
  refine ⟨inferInstance, (candidateIndexes_exact selfReferenced_ready
    (getElem?_singleton.mpr ⟨rfl, rfl⟩) (textBatch_valid (nodup_singleton 1))).1.mpr
      ⟨textBatch_keyed hbound, fun d hd hbreaks => hbreaks.2 ?_⟩⟩
  cases mem_valuesOf_singleton.mp hd
  exact applyChanges_textBatch ▸ textBatch_unique hbound

theorem validate_of_referenceCandidate {states : ExtTreeMap UInt64 ReferenceState}
    (h : db.referenceCandidate name changes = .ok states) :
    db.validateSourceReferenceChanges db.rowSource name changes = .ok () := by
  unfold referenceCandidate at h
  split at h
  · rename_i htrivial
    rw [validateSourceReferenceChanges, if_pos htrivial]
    rfl
  · exact (of_bind h).choose_spec.1

namespace Database.Applies

/-- What an applied batch has done. -/
theorem inv (h : db.Applies name table changes db') : ∃ indexes states entries,
    db.candidateIndexes name table.primaryKey changes = .ok indexes ∧
    db.referenceCandidate name changes = .ok states ∧
    db' = { db.setRows name table (applyChanges table.rows changes) with
      referenceStates := states
      indexes := if (db.definitions name).isEmpty then db.indexes
        else db.indexes.insert name indexes
      pendingWrites := { db.pendingWrites.recordRowChanges name changes with
        indexEntries := entries } } := by
  obtain ⟨t, ht, h'⟩ := of_bind h.replaced
  cases (table_eq_ok.mpr h.found).symm.trans ht
  obtain ⟨indexes, hindexes, states, hstates, h'⟩ := of_bind₂ h'
  obtain ⟨t, -, entries, -, h'⟩ := of_bind₂ h'
  cases h'
  exact ⟨indexes, states, entries, hindexes, hstates, rfl⟩

/-- An applied batch leaves the final rows, and the indexes follow them. -/
theorem afterBatch (hr : ReferencesReady db) (h : db.Applies name table changes db') :
    AfterBatch db db' name table (applyChanges table.rows changes) := by
  obtain ⟨indexes, states, entries, hindexes, -, rfl⟩ := h.inv
  have ht := table_eq_ok.mpr h.found
  have hf := hr.follow name table h.found
  have hkeyed := (forM_checkChange ht h.valid).mp (of_bind hindexes).choose_spec.1
  refine ⟨rfl, rfl, rfl, fun n t hn => ?_⟩
  obtain ⟨candidate, hcandidate, hfinal⟩ | ⟨d, -, -, herror⟩ := candidateIndexes_spec ht
    (hr.ascending name table h.found) hf h.valid hkeyed
  · cases hindexes.symm.trans hcandidate
    rw [getElem?_setRows] at hn
    split at hn
    · rename_i heq
      subst heq
      cases hn
      refine ⟨hf.shapes, fun d hd row hrow => ?_, fun d hd => ?_, fun d hd => ?_⟩
      · obtain ⟨change, hc, ha⟩ | ⟨hmem, -⟩ := (mem_applyChanges h.valid).mp hrow
        · exact (ha ▸ hkeyed d hd change hc :)
        · exact hf.keyed d hd row hmem
      · obtain ⟨posting, hposting, hrep, -⟩ := hfinal d hd
        have hne : ¬ (db.definitions name).isEmpty := fun hempty => by
          change d ∈ valuesOf (db.definitions name) at hd
          rw [valuesOf_eq_nil.mpr hempty] at hd
          cases hd
        exact ⟨posting, by simpa [tableIndexes, hne] using hposting, hrep⟩
      · exact (hfinal d hd).elim fun _ hposting => hposting.2.2
    · rename_i hne
      have hother := hr.follow n t hn
      refine ⟨hother.shapes, hother.keyed, fun d hd => ?_, hother.unique⟩
      obtain ⟨posting, hposting, hrep⟩ := hother.postings d hd
      refine ⟨posting, ?_, hrep⟩
      rw [← hposting]
      unfold tableIndexes
      split <;> simp [ExtTreeMap.getElem?_insert, hne]
  · cases hindexes.symm.trans herror

/-- **One batch.** A ready database stays ready. -/
theorem ready (hr : ReferencesReady db) (h : db.Applies name table changes db') :
    ReferencesReady db' := by
  have hafter := h.afterBatch hr
  obtain ⟨indexes, states, entries, hindexes, hstates, rfl⟩ := h.inv
  have hkeyed := (forM_checkChange (table_eq_ok.mpr h.found) h.valid).mp
    (of_bind hindexes).choose_spec.1
  have hok := validate_of_referenceCandidate hstates
  obtain ⟨states', hstates', hposted⟩ := hr.referenceCandidate_spec h.found h.valid hkeyed hok
  cases hstates.symm.trans hstates'
  refine ⟨hafter.tables hr.tables h.found, fun n t hn => ?_, hafter.follow, hr.listed,
    fun d hd => ?_, fun d hd => ?_, fun d hd => ?_, fun d hd => ?_⟩
  · rw [hafter.objects, getElem?_setRows] at hn
    split at hn
    · cases hn
      exact (hr.ascending name table h.found).applyChanges h.valid h.fresh h.ordered
    · exact hr.ascending n t hn
  · obtain ⟨t, hmem, hid⟩ := find?_isSome.mp (hr.sourced d hd)
    obtain ⟨n, hn⟩ := mem_valuesOf.mp hmem
    refine find?_isSome.mpr ?_
    by_cases heq : name = n
    · cases (heq ▸ h.found).symm.trans hn
      exact ⟨_, mem_valuesOf.mpr ⟨name, ExtTreeMap.getElem?_insert_self⟩, hid⟩
    · exact ⟨t, mem_valuesOf.mpr ⟨n, by rwa [getElem?_setRows, if_neg heq]⟩, hid⟩
  · obtain ⟨target, index, hb⟩ := hr.bound d hd
    obtain ⟨target', hb', -⟩ := hafter.bound hr.tables h.found hb
    exact ⟨target', index, hb'⟩
  · obtain ⟨state, hstate, hrep⟩ := hposted d hd
    exact ⟨state, hstate, hafter.rowsOf d.tableId ▸ hrep⟩
  · exact hafter.holds (((hr.validate_eq_ok h.found h.valid hkeyed).mp hok).1 d hd)

/-- The row at an identity after a batch. -/
theorem rowAt_eq (h : db.Applies name table changes db') (hasc : RowsAscending table.rows)
    (k : String × RowId) : db'.rowAt k =
      if k.1 = name then (changeAt changes k.2).elim (db.rowAt k) RowChange.after
      else db.rowAt k := by
  obtain ⟨indexes, states, entries, -, -, rfl⟩ := h.inv
  simp only [rowAt, getElem?_setRows]
  by_cases hname : k.1 = name
  · simp [hname, h.found, findRow_applyChanges hasc h.valid]
  · simp [hname, Ne.symm hname]

theorem netWrites {init : String × RowId → Option Row} {batches : List (String × List RowChange)}
    (hasc : RowsAscending table.rows) (h : db.Applies name table changes db')
    (hw : db.NetWrites init batches) : db'.NetWrites init (batches ++ [(name, changes)]) := by
  intro k
  have hk := hw k
  rw [h.rowAt_eq hasc, touched_append]
  obtain ⟨indexes, states, entries, -, -, rfl⟩ := h.inv
  rw [lookup_recordRowChanges h.valid.nodup]
  by_cases hname : k.1 = name
  · rw [if_pos hname, if_pos hname]
    cases hat : changeAt changes k.2 with
    | none => simpa [hname] using hk
    | some change =>
      obtain ⟨hc, hid⟩ := mem_of_changeAt hat
      have hbefore : change.before = db.rowAt k := by
        rw [h.valid.before_eq change hc, hid, rowAt, hname, h.found]
        rfl
      simpa [hname] using hk.record hbefore
  · rw [if_neg hname, if_neg hname]
    simpa [hname] using hk

end Database.Applies

/-- One batch after another. -/
inductive Database.Runs (db : Database) : List (String × List RowChange) → Database → Prop
  | start : Runs db [] db
  | batch {batches : List (String × List RowChange)} {db' db'' : Database} {name : String}
      {table : Table} {changes : List RowChange} (h : Runs db batches db')
      (hstep : db'.Applies name table changes db'') : Runs db (batches ++ [(name, changes)]) db''

def Database.Reaches (db db' : Database) : Prop := ∃ batches, db.Runs batches db'

theorem ReferencesReady.run (hr : ReferencesReady db) (hrun : db.Reaches db') :
    ReferencesReady db' := by
  obtain ⟨batches, hrun⟩ := hrun
  induction hrun with
  | start => exact hr
  | batch _ hstep ih => exact hstep.ready ih

omit [External] in
/-- A later batch, that changes one row and deletes another. -/
def textEdit : List RowChange :=
  [.updated (textRow 1) ⟨1, [("id", .text "b")]⟩, .deleted (textRow 2)]

omit [External] in
/-- A run that inserts two rows with references to themselves, then changes one and deletes
the other. -/
theorem selfReferenced_runs : ∃ (_ : External) (db' : Database),
    selfReferenced.Runs [("t", textBatch [1, 2]), ("t", textEdit)] db' ∧
      db'.rowAt ("t", 1) = some ⟨1, [("id", .text "b")]⟩ ∧ db'.rowAt ("t", 2) = none ∧
      textIndex ∈ valuesOf (db'.definitions "t") := by
  let _ : External := ⟨fun _ => 0, fun _ => 0, fun _ => ""⟩
  obtain ⟨db', hrun⟩ := exists_of_toBool (by decide +kernel : (do
      let db ← selfReferenced.replaceRowsAndIndexes "t"
        (applyChanges textTable.rows (textBatch [1, 2])) (textBatch [1, 2])
      db.replaceRowsAndIndexes "t"
        (applyChanges (applyChanges textTable.rows (textBatch [1, 2])) textEdit)
        textEdit).toBool = true)
  obtain ⟨db, hfirst, hsecond⟩ := of_bind hrun
  have ht : selfReferenced.objects["t"]? = some textTable := getElem?_singleton.mpr ⟨rfl, rfl⟩
  have hinsert : selfReferenced.Applies "t" textTable (textBatch [1, 2]) db :=
    ⟨ht, textBatch_valid (by decide), (fun _ _ _ hrow => nomatch hrow),
      pairwise_pair.mpr (by decide : 1 < 2), hfirst⟩
  have hasc := hinsert.ready selfReferenced_ready
  have ht' : db.objects["t"]? =
      some { textTable with rows := applyChanges textTable.rows (textBatch [1, 2]) } := by
    obtain ⟨indexes, states, entries, -, -, rfl⟩ := hinsert.inv
    exact ExtTreeMap.getElem?_insert_self
  have hvalid : ValidChanges (applyChanges textTable.rows (textBatch [1, 2])) textEdit := by
    refine ⟨by decide, ?_, ?_⟩ <;> simp only [textEdit, forall_mem_cons, not_mem_nil,
      false_imp_iff, implies_true, and_true]
    · exact ⟨rfl, rfl⟩
    · refine ⟨fun row hrow => ?_, fun row hrow => nomatch hrow⟩
      cases hrow
      rfl
  have hedit : db.Applies "t" _ textEdit db' :=
    ⟨ht', hvalid, (fun _ hnew => nomatch hnew), .nil, hsecond⟩
  have hrow := hedit.rowAt_eq (hasc.ascending _ _ ht')
  refine ⟨inferInstance, db', (Runs.start.batch hinsert).batch hedit, hrow ("t", 1),
    hrow ("t", 2), ?_⟩
  obtain ⟨indexes, states, entries, -, -, rfl⟩ := hedit.inv
  obtain ⟨indexes, states, entries, -, -, rfl⟩ := hinsert.inv
  exact mem_valuesOf_singleton.mpr rfl

/-- **Runs keep a database ready.** After any run of batches, over any tables, every row has its
keys, every constraint and every reference holds, and each posting and reverse posting is
the one that a rebuild over the final rows finds. -/
theorem run_ready (hr : ReferencesReady db) (hrun : db.Reaches db') :
    ReferencesReady db' ∧
    (∀ (name : String) (table : Table), db'.objects[name]? = some table →
      ∀ d ∈ valuesOf (db'.definitions name), ∃ posting,
        (db'.tableIndexes name)[d.shapeKey]? = some posting ∧ db'.buildIndex name d = .ok posting) ∧
    ∀ d ∈ valuesOf db'.referenceDefinitions, ∃ source target state,
      db'.tableById d.tableId = some source ∧ db'.tableById d.targetTableId = some target ∧
      db'.referenceStates[d.id]? = some state ∧
      db'.buildReferenceState d source.name target.name = .ok state := by
  have hr' := hr.run hrun
  refine ⟨hr', fun name table ht d hd => ?_, fun d hd => ?_⟩
  · have hf := hr'.follow name table ht
    obtain ⟨posting, hposting, hrep⟩ := hf.postings d hd
    exact ⟨posting, hposting, buildIndex_eq_ok (table_eq_ok.mpr ht)
      (hr'.ascending name table ht) (hf.keyed d hd) hrep⟩
  · obtain ⟨source, hsource⟩ := Option.isSome_iff_exists.mp (hr'.sourced d hd)
    obtain ⟨hobj, hid⟩ := hr'.tables.tableById_eq_some.mp hsource
    obtain ⟨target, index, hb⟩ := hr'.bound d hd
    obtain ⟨htarget, htid, -⟩ := hb.target_eq hr'.tables
    obtain ⟨state, hstate, hrep⟩ := hr'.posted d hd
    refine ⟨source, target, state, hsource, hr'.tables.tableById_eq_some.mpr ⟨htarget, htid⟩,
      hstate, buildReferenceState_eq_ok hr'.tables hb (hr'.follow _ _ htarget) hobj hid
        (hr'.holds d hd) ?_⟩
    rwa [← hid, hr'.tables.rowsOf_eq hobj] at hrep

omit [External] in
theorem run_ready_edited : ∃ (_ : External) (db' : Database), selfReferenced.Reaches db' ∧
    db'.rowAt ("t", 1) = some ⟨1, [("id", .text "b")]⟩ ∧ db'.rowAt ("t", 2) = none ∧
    ReferencesReady db' := by
  obtain ⟨_, db', hrun, hfirst, hsecond, -⟩ := selfReferenced_runs
  exact ⟨inferInstance, db', ⟨_, hrun⟩, hfirst, hsecond,
    (run_ready selfReferenced_ready ⟨_, hrun⟩).1⟩

/-- **Index scans after a run are exact**: a scan finds the rows with a key in the bounds and
no others, in the order of the keys, rows of one key by identity. -/
theorem run_scanIndex (hr : ReferencesReady db) (hrun : db.Reaches db')
    (ht : db'.objects[name]? = some table) {d : IndexDefinition}
    (hd : d ∈ valuesOf (db'.definitions name)) (bounds : EncodedIndexBounds) (reverse : Bool) :
    ∃ hits, db'.rowSource.scanIndex name d.shapeKey bounds reverse none = .ok hits ∧
      (∀ key id, ⟨key, id⟩ ∈ hits ↔ bounds.contains key ∧ ∃ row ∈ table.rows,
        rowKey db'.catalog table.schema name d row = .ok (some key) ∧ row.id = id) ∧
      hits.Pairwise fun a b =>
        Posting.Before reverse (a.boundary, a.rowId) (b.boundary, b.rowId) := by
  obtain ⟨posting, hposting, hrep⟩ := ((hr.run hrun).follow name table ht).postings d hd
  refine ⟨(posting.scan bounds.contains reverse).map fun e => ⟨e.1, e.2⟩, ?_, fun key id => ?_, ?_⟩
  · simp [rowSource, planned, hposting, limitHits]
  · have hmem : (⟨key, id⟩ : IndexHit) ∈ (posting.scan bounds.contains reverse).map
        (fun e => ⟨e.1, e.2⟩) ↔ (key, id) ∈ posting.scan bounds.contains reverse := by simp
    rw [hmem, Posting.mem_scan, hrep.mem_idsAt]
    rfl
  · exact pairwise_map.mpr (Posting.pairwise_scan hrep.valid _ _)

omit [External] in
theorem run_scanIndex_edited : ∃ (_ : External) (db' : Database) (hits : List IndexHit),
    db'.rowAt ("t", 1) = some ⟨1, [("id", .text "b")]⟩ ∧
      db'.rowSource.scanIndex "t" "id" (.point (textKey 1)) false none = .ok hits := by
  obtain ⟨_, db', hrun, hrow, -, hd⟩ := selfReferenced_runs
  obtain ⟨table, ht, -⟩ := Option.bind_eq_some_iff.mp hrow
  obtain ⟨hits, hscan, -⟩ := run_scanIndex selfReferenced_ready ⟨_, hrun⟩ ht hd
    (.point (textKey 1)) false
  exact ⟨inferInstance, db', hits, hrow, hscan⟩

/-- **The write set of a run is its net difference**, however often a row was changed. -/
theorem run_netWrites (hr : ReferencesReady db) (hempty : db.pendingWrites.rows = ∅)
    {batches : List (String × List RowChange)} (hrun : db.Runs batches db') :
    db'.NetWrites db.rowAt batches := by
  induction hrun with
  | start =>
    intro k
    rw [hempty]
    exact ⟨by simp, fun _ => rfl, by simp [Touched]⟩
  | batch hrun hstep ih => exact hstep.netWrites ((hr.run ⟨_, hrun⟩).ascending _ _ hstep.found) ih

omit [External] in
/-- The changed row has an entry, and the one that was inserted and deleted has none. -/
theorem run_netWrites_edited : ∃ (_ : External) (db' : Database),
    selfReferenced.Runs [("t", textBatch [1, 2]), ("t", textEdit)] db' ∧
      (∃ change, db'.pendingWrites.rows.lookup ("t", 1) = some change ∧ change.before = none ∧
        change.after = some ⟨1, [("id", .text "b")]⟩) ∧
      db'.pendingWrites.rows.lookup ("t", 2) = none := by
  obtain ⟨_, db', hrun, hfirst, hsecond, -⟩ := selfReferenced_runs
  have hwrites := run_netWrites selfReferenced_ready rfl hrun
  have ht : selfReferenced.objects["t"]? = some textTable := getElem?_singleton.mpr ⟨rfl, rfl⟩
  have hnone : ∀ n, selfReferenced.rowAt ("t", n) = none := fun n => by
    rw [rowAt, ht]
    rfl
  refine ⟨inferInstance, db', hrun, ?_, ?_⟩
  · obtain ⟨change, hchange⟩ := Option.isSome_iff_exists.mp ((hwrites ("t", 1)).present.mpr
      ⟨⟨_, mem_cons_self, rfl, _, mem_cons_self, rfl⟩, .inr (by rw [hfirst]; rfl)⟩)
    obtain ⟨hbefore, hafter⟩ := (hwrites ("t", 1)).images change hchange
    exact ⟨change, hchange, hbefore.trans (hnone 1), hafter.trans hfirst⟩
  · rw [← Option.not_isSome_iff_eq_none, (hwrites ("t", 2)).present, hnone, hsecond]
    simp

end Step
end UnionId
