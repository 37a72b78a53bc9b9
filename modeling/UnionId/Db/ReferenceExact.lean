import Mathlib.Algebra.Group.Action.Defs
import UnionId.Db.ReferenceSound

/-!
# Exactness of the reference check

All references of a database under one batch, and the reverse postings that an
accepted batch leaves.

## Main results

* `ReferencesReady.referenceCandidate_spec` — an accepted batch leaves the reverse
  postings of the final rows.
* `validateSourceReferenceChanges_exact` — the check accepts exactly the batches after
  which every reference holds, within its working-state limit.
-/
namespace UnionId

open Lib Std List Database

namespace Database

variable [External] {db : Database} {name : String} {table : Table} {changes : List RowChange}

theorem validateReferences_eq_ok {source : RowSource} {tableId : UInt64}
    {definitions : List ReferenceDefinition} :
    db.validateReferences source tableId changes definitions = .ok () ↔
      ∀ d ∈ definitions, db.validateReference source tableId changes d = .ok () := by
  induction definitions with
  | nil => simp [validateReferences]
  | cons d definitions ih =>
    rw [forall_mem_cons, ← ih, validateReferences, bind_eq_ok]
    exact ⟨fun ⟨⟨⟩, hd, h⟩ => ⟨hd, h⟩, fun ⟨hd, h⟩ => ⟨⟨⟩, hd, h⟩⟩

omit [External] in
theorem valuesOf_references_eq_nil (h : (!db.hasReferences) = true) :
    valuesOf db.referenceDefinitions = [] :=
  valuesOf_eq_nil.mpr (by simpa [hasReferences] using h)

end Database

section Exact
variable [External] {db : Database} {name : String} {table : Table} {changes : List RowChange}
  {d : ReferenceDefinition}

/-- A reference between other tables does not notice the batch. -/
theorem ReferencesReady.holds_of_unaffected (hr : ReferencesReady db)
    (ht : db.objects[name]? = some table) (hd : d ∈ valuesOf db.referenceDefinitions)
    (hs : d.tableId ≠ table.id) (hT : d.targetTableId ≠ table.id) (rows : List Row) :
    ReferenceHolds (db.setRows name table rows) d := by
  have hold := hr.holds d hd
  refine ⟨?_, ?_⟩
  · rw [hr.tables.rowsOf_setRows ht, if_neg hs]
    exact hold.keyed
  · rw [hr.tables.rowsOf_setRows ht, if_neg hs, hr.tables.rowsOf_setRows ht, if_neg hT]
    exact hold.holds

omit [External] in
theorem batchBytes_of_unaffected : db.batchBytes d false false changes = 0 := by
  have hzero : db.changeBytes d false false = fun _ => 0 := funext fun _ => rfl
  simp [batchBytes, hzero]

/-- The working state of the check stays within its limit for every reference. -/
def WithinReferenceLimit (db : Database) (table : Table) (changes : List RowChange) : Prop :=
  ∀ d ∈ valuesOf db.referenceDefinitions,
    db.batchBytes d (d.tableId = table.id) (d.targetTableId = table.id) changes ≤
      GENERAL_WORKING_MAX_BYTES

omit [External] in
theorem applyChanges_nil (rows : List Row) : applyChanges rows [] = rows := by
  simp [applyChanges, changeAt]

/-- A batch without changes leaves all rows. -/
theorem ReferencesReady.rowsOf_nil (hr : ReferencesReady db) (ht : db.objects[name]? = some table)
    (id : UInt64) :
    (db.setRows name table (applyChanges table.rows [])).rowsOf id = db.rowsOf id := by
  rw [hr.tables.rowsOf_setRows ht, applyChanges_nil]
  split
  · rename_i hid
    rw [hid, hr.tables.rowsOf_eq ht]
  · rfl

/-- **The whole check.** -/
theorem ReferencesReady.validate_eq_ok (hr : ReferencesReady db)
    (ht : db.objects[name]? = some table) (hv : ValidChanges table.rows changes)
    (hk : db.BatchKeyed name table changes) :
    db.validateSourceReferenceChanges db.rowSource name changes = .ok () ↔
      (∀ d ∈ valuesOf db.referenceDefinitions,
        ReferenceHolds (db.setRows name table (applyChanges table.rows changes)) d) ∧
      WithinReferenceLimit db table changes := by
  have heach : ∀ d ∈ valuesOf db.referenceDefinitions,
      (db.validateReference db.rowSource table.id changes d = .ok () ↔
        ReferenceHolds (db.setRows name table (applyChanges table.rows changes)) d ∧
          db.batchBytes d (d.tableId = table.id) (d.targetTableId = table.id) changes ≤
            GENERAL_WORKING_MAX_BYTES) := by
    intro d hd
    by_cases haff : d.tableId = table.id ∨ d.targetTableId = table.id
    · exact hr.validateReference_eq_ok ht hd hv hk haff
    · obtain ⟨hs, hT⟩ := not_or.mp haff
      refine iff_of_true ?_ ⟨hr.holds_of_unaffected ht hd hs hT _, ?_⟩
      · simp [validateReference, hs, hT]
      · simp [hs, hT, batchBytes_of_unaffected]
  have hall : (∀ d ∈ valuesOf db.referenceDefinitions,
      db.validateReference db.rowSource table.id changes d = .ok ()) ↔
        (∀ d ∈ valuesOf db.referenceDefinitions,
          ReferenceHolds (db.setRows name table (applyChanges table.rows changes)) d) ∧
        WithinReferenceLimit db table changes := by
    rw [WithinReferenceLimit, ← forall₂_and]
    exact forall₂_congr heach
  rw [← hall]
  unfold validateSourceReferenceChanges
  split
  · rename_i htrivial
    refine iff_of_true rfl fun d hd => ?_
    rw [Bool.or_eq_true] at htrivial
    obtain hnil | hnone := htrivial
    · obtain rfl : changes = [] := by simpa using hnil
      refine (heach d hd).mpr ⟨?_, by simp [batchBytes]⟩
      have hold := hr.holds d hd
      exact ⟨by rw [hr.rowsOf_nil ht]; exact hold.keyed,
        by rw [hr.rowsOf_nil ht, hr.rowsOf_nil ht]; exact hold.holds⟩
    · rw [valuesOf_references_eq_nil hnone] at hd
      cases hd
  · rw [table_eq_ok.mpr ht, ok_bind, validateReferences_eq_ok]

end Exact

/-! ## Reverse postings -/

section Postings
variable {db : Database} {d : ReferenceDefinition} {changes : List RowChange}
  {sources : Posting (List UInt8) RowId} {S : Set (List UInt8 × RowId)}

theorem dropSource_spec {image : Option Row}
    (hk : ∃ k, imageOf (d.sourceKey db.catalog) image = .ok k) (hp : sources.Represents S) :
    ∃ result, db.dropSource d sources image = .ok result ∧
      result.Represents (S \ entriesOf (d.sourceKey db.catalog) image.toList) := by
  cases image with
  | none => exact ⟨sources, rfl, by simpa [entriesOf] using hp⟩
  | some row =>
    obtain ⟨k, hk⟩ := hk
    have hkey : d.key db.catalog row.fields true = .ok k := hk
    simp only [dropSource, hkey, ok_bind]
    cases k with
    | none =>
      refine ⟨sources, rfl, ?_⟩
      have hnone : d.sourceKey db.catalog row = .ok none := hk
      simpa [entriesOf, hnone] using hp
    | some k =>
      refine ⟨_, rfl, ?_⟩
      rw [Option.toList_some, entriesOf_singleton hk]
      exact hp.remove

theorem addSource_spec {image : Option Row}
    (hk : ∃ k, imageOf (d.sourceKey db.catalog) image = .ok k) (hp : sources.Represents S) :
    ∃ result, db.addSource d sources image = .ok result ∧
      result.Represents (S ∪ entriesOf (d.sourceKey db.catalog) image.toList) := by
  cases image with
  | none => exact ⟨sources, rfl, by simpa [entriesOf] using hp⟩
  | some row =>
    obtain ⟨k, hk⟩ := hk
    have hkey : d.key db.catalog row.fields true = .ok k := hk
    simp only [addSource, hkey, ok_bind]
    cases k with
    | none =>
      refine ⟨sources, rfl, ?_⟩
      have hnone : d.sourceKey db.catalog row = .ok none := hk
      simpa [entriesOf, hnone] using hp
    | some k =>
      refine ⟨_, rfl, ?_⟩
      rw [Option.toList_some, entriesOf_singleton hk, Set.union_singleton]
      exact hp.insert

theorem foldlM_dropSource
    (hk : ∀ change ∈ changes, ∃ k, imageOf (d.sourceKey db.catalog) change.before = .ok k)
    (hp : sources.Represents S) :
    ∃ result, changes.foldlM (fun sources change => db.dropSource d sources change.before)
        sources = .ok result ∧
      result.Represents (S \ entriesOf (d.sourceKey db.catalog) (befores changes)) := by
  induction changes generalizing sources S with
  | nil => exact ⟨sources, rfl, by simpa [befores, entriesOf] using hp⟩
  | cons change changes ih =>
    rw [forall_mem_cons] at hk
    obtain ⟨next, hnext, hrep⟩ := dropSource_spec hk.1 hp
    obtain ⟨result, hrest, hres⟩ := ih hk.2 hrep
    refine ⟨result, by rw [foldlM_cons, hnext]; exact hrest, ?_⟩
    convert hres using 1
    rw [befores_cons, entriesOf_append]
    rw [sdiff_sdiff]
    rfl

theorem foldlM_addSource
    (hk : ∀ change ∈ changes, ∃ k, imageOf (d.sourceKey db.catalog) change.after = .ok k)
    (hp : sources.Represents S) :
    ∃ result, changes.foldlM (fun sources change => db.addSource d sources change.after)
        sources = .ok result ∧
      result.Represents (S ∪ entriesOf (d.sourceKey db.catalog) (afters changes)) := by
  induction changes generalizing sources S with
  | nil => exact ⟨sources, rfl, by simpa [afters, entriesOf] using hp⟩
  | cons change changes ih =>
    rw [forall_mem_cons] at hk
    obtain ⟨next, hnext, hrep⟩ := addSource_spec hk.1 hp
    obtain ⟨result, hrest, hres⟩ := ih hk.2 hrep
    refine ⟨result, by rw [foldlM_cons, hnext]; exact hrest, ?_⟩
    convert hres using 1
    rw [Set.union_assoc, ← entriesOf_append, afters_cons]

/-- The reverse postings after a batch: those of the changed source table are
revised, all others stay. -/
theorem candidateStates_spec (tableId : UInt64) {definitions : List ReferenceDefinition}
    (hn : (definitions.map fun d => d.id).Nodup) (states : ExtTreeMap UInt64 ReferenceState)
    {E : ReferenceDefinition → Set (List UInt8 × RowId)}
    (hposted : ∀ d ∈ definitions, ∃ state : ReferenceState, states[d.id]? = some state ∧
      state.sources.Represents (E d))
    (hbefore : ∀ d ∈ definitions, d.tableId = tableId → ∀ change ∈ changes,
      ∃ k, imageOf (d.sourceKey db.catalog) change.before = .ok k)
    (hafter : ∀ d ∈ definitions, d.tableId = tableId → ∀ change ∈ changes,
      ∃ k, imageOf (d.sourceKey db.catalog) change.after = .ok k) :
    ∃ result, db.candidateStates tableId changes states definitions = .ok result ∧
      (∀ d ∈ definitions, ∃ state : ReferenceState, result[d.id]? = some state ∧
        state.sources.Represents
        (if d.tableId = tableId then
          (E d \ entriesOf (d.sourceKey db.catalog) (befores changes)) ∪
            entriesOf (d.sourceKey db.catalog) (afters changes)
        else E d)) ∧
      ∀ id, (∀ d ∈ definitions, d.id ≠ id) → result[id]? = states[id]? := by
  induction definitions generalizing states with
  | nil => exact ⟨states, rfl, by simp, by simp⟩
  | cons d definitions ih =>
    rw [map_cons, nodup_cons] at hn
    obtain ⟨hnot, hn⟩ := hn
    rw [forall_mem_cons] at hposted hbefore hafter
    obtain ⟨⟨state, hstate, hrep⟩, hposted⟩ := hposted
    have hother : ∀ d' ∈ definitions, d.id ≠ d'.id := fun d' hd' heq =>
      hnot (mem_map.mpr ⟨d', hd', heq.symm⟩)
    rw [candidateStates]
    by_cases hid : d.tableId = tableId
    · obtain ⟨dropped, hdrop, hdrep⟩ := foldlM_dropSource (hbefore.1 hid) hrep
      obtain ⟨final, hadd, hfrep⟩ := foldlM_addSource (hafter.1 hid) hdrep
      rw [if_neg (by simpa using hid)]
      simp only [hstate, hdrop, hadd, ok_bind]
      obtain ⟨result, hres, hall, hsame⟩ := ih hn (states.insert d.id ⟨final⟩) (by
        intro d' hd'
        obtain ⟨state', hstate', hrep'⟩ := hposted d' hd'
        refine ⟨state', ?_, hrep'⟩
        rw [ExtTreeMap.getElem?_insert, if_neg (by simpa using hother d' hd'), hstate'])
        hbefore.2 hafter.2
      refine ⟨result, hres, ?_, ?_⟩
      · rw [forall_mem_cons]
        refine ⟨⟨⟨final⟩, ?_, by rw [if_pos hid]; exact hfrep⟩, hall⟩
        rw [hsame d.id fun d' hd' heq => hother d' hd' heq.symm]
        simp
      · intro id hids
        rw [forall_mem_cons] at hids
        rw [hsame id hids.2, ExtTreeMap.getElem?_insert, if_neg (by simpa using hids.1)]
    · rw [if_pos hid]
      obtain ⟨result, hres, hall, hsame⟩ := ih hn states hposted hbefore.2 hafter.2
      refine ⟨result, hres, ?_, fun id hids => hsame id (forall_mem_cons.mp hids).2⟩
      rw [forall_mem_cons]
      refine ⟨⟨state, ?_, by rw [if_neg hid]; exact hrep⟩, hall⟩
      rw [hsame d.id fun d' hd' heq => hother d' hd' heq.symm, hstate]

end Postings

section Candidate
variable [External] {db : Database} {name : String} {table : Table} {changes : List RowChange}

/-- **Accepted postings.** An accepted batch leaves, for every reference, the
reverse posting of the final rows. -/
theorem ReferencesReady.referenceCandidate_spec (hr : ReferencesReady db)
    (ht : db.objects[name]? = some table) (hv : ValidChanges table.rows changes)
    (hk : db.BatchKeyed name table changes)
    (hok : db.validateSourceReferenceChanges db.rowSource name changes = .ok ()) :
    ∃ states, db.referenceCandidate name changes = .ok states ∧
      ∀ d ∈ valuesOf db.referenceDefinitions, ∃ state, states[d.id]? = some state ∧
        state.sources.Represents (entriesOf (d.sourceKey db.catalog)
          ((db.setRows name table (applyChanges table.rows changes)).rowsOf d.tableId)) := by
  obtain ⟨hholds, -⟩ := (hr.validate_eq_ok ht hv hk).mp hok
  have hrows : ∀ d ∈ valuesOf db.referenceDefinitions, d.tableId = table.id →
      db.rowsOf d.tableId = table.rows := fun d _ h => h ▸ hr.tables.rowsOf_eq ht
  obtain ⟨result, hres, hall, -⟩ := candidateStates_spec table.id
    (nodup_map_valuesOf hr.listed) db.referenceStates
    hr.posted (by
      intro d hd hid change hc
      cases hb : change.before with
      | none => exact ⟨none, rfl⟩
      | some row => exact (hr.holds d hd).keyed row (hrows d hd hid ▸ (hv.mem_of_before hc hb).1))
    (by
      intro d hd hid change hc
      cases ha : change.after with
      | none => exact ⟨none, rfl⟩
      | some row =>
        refine (hholds d hd).keyed row ?_
        rw [hr.tables.rowsOf_setRows ht, if_pos hid]
        exact (mem_applyChanges hv).mpr (.inl ⟨change, hc, ha⟩))
  have hfinal : ∀ d ∈ valuesOf db.referenceDefinitions, (if d.tableId = table.id then
      (entriesOf (d.sourceKey db.catalog) (db.rowsOf d.tableId) \
        entriesOf (d.sourceKey db.catalog) (befores changes)) ∪
          entriesOf (d.sourceKey db.catalog) (afters changes)
      else entriesOf (d.sourceKey db.catalog) (db.rowsOf d.tableId)) =
        entriesOf (d.sourceKey db.catalog)
          ((db.setRows name table (applyChanges table.rows changes)).rowsOf d.tableId) := by
    intro d hd
    rw [hr.tables.rowsOf_setRows ht]
    split
    · rename_i hid
      rw [hrows d hd hid, entriesOf_applyChanges (hr.ascending _ _ ht) hv]
    · rfl
  unfold referenceCandidate
  split
  · rename_i htrivial
    refine ⟨db.referenceStates, rfl, fun d hd => ?_⟩
    rw [Bool.or_eq_true] at htrivial
    obtain hnil | hnone := htrivial
    · obtain rfl : changes = [] := by simpa using hnil
      rw [hr.rowsOf_nil ht]
      exact hr.posted d hd
    · rw [valuesOf_references_eq_nil hnone] at hd
      cases hd
  · rw [hok, ok_bind, table_eq_ok.mpr ht, ok_bind]
    refine ⟨result, hres, fun d hd => ?_⟩
    obtain ⟨state, hstate, hrep⟩ := hall d hd
    exact ⟨state, hstate, hfinal d hd ▸ hrep⟩

end Candidate

/-! ## Rebuilding -/

section Rebuild
variable [External] {db : Database} {d : ReferenceDefinition} {target : Table}
  {index : IndexDefinition}

theorem postSources_spec {name shape : String} {rows : List Row}
    {sources : Posting (List UInt8) RowId} {S : Set (List UInt8 × RowId)}
    (hp : sources.Represents S) (hk : Keyed (d.sourceKey db.catalog) rows)
    (hhit : ∀ row ∈ rows, ∀ k, d.sourceKey db.catalog row = .ok (some k) → ∃ boundary,
      db.referenceTargetBoundary d row.fields = .ok (some boundary) ∧
        ∃ hits, db.rowSource.scanIndex name shape (.point boundary) false none = .ok hits ∧
          hits ≠ []) : ∃ result, db.postSources d name shape sources rows = .ok result ∧
      result.Represents (S ∪ entriesOf (d.sourceKey db.catalog) rows) := by
  induction rows generalizing sources S with
  | nil => exact ⟨sources, rfl, by simpa [entriesOf] using hp⟩
  | cons row rows ih =>
    obtain ⟨⟨k, hrow⟩, hk⟩ := keyed_cons.mp hk
    rw [forall_mem_cons] at hhit
    have hkey : d.key db.catalog row.fields true = .ok k := hrow
    simp only [postSources, hkey, ok_bind]
    cases k with
    | none =>
      obtain ⟨result, hres, hrep⟩ := ih hp hk hhit.2
      refine ⟨result, hres, ?_⟩
      convert hrep using 1
      rw [entriesOf_cons]
      ext e
      simp [hrow]
    | some k =>
      obtain ⟨boundary, hbound, hits, hscan, hne⟩ := hhit.1 k hrow
      obtain ⟨result, hres, hrep⟩ := ih hp.insert hk hhit.2
      refine ⟨result, ?_, ?_⟩
      · simp only [hbound, hscan, ok_bind]
        rw [if_neg (by simpa using hne)]
        exact hres
      · convert hrep using 1
        rw [entriesOf_cons]
        ext ⟨k', i⟩
        simp only [hrow, Set.mem_union, Set.mem_insert_iff, Set.mem_ofPred_eq, Prod.mk.injEq,
          Except.ok.injEq, Option.some.injEq]
        tauto

/-- **Rebuilding.** A reverse posting of the source rows is what a rebuild finds,
when the reference holds. -/
theorem buildReferenceState_eq_ok (hw : TablesWF db) (hb : ReferenceBound db d target index)
    (hf : db.IndexesFollow target.name target) {source : String} {table : Table}
    (hs : db.objects[source]? = some table) (hid : table.id = d.tableId)
    (hholds : ReferenceHolds db d) {state : ReferenceState}
    (hrep : state.sources.Represents (entriesOf (d.sourceKey db.catalog) table.rows)) :
    db.buildReferenceState d source target.name = .ok state := by
  obtain ⟨hobj, htid, hidx⟩ := hb.target_eq hw
  obtain ⟨posting, hpost, hprep⟩ := hf.postings index hidx
  have hsrc : db.rowsOf d.tableId = table.rows := hid ▸ hw.rowsOf_eq hs
  have htgt : db.rowsOf d.targetTableId = target.rows := htid ▸ hw.rowsOf_eq hobj
  have hhit : ∀ row ∈ table.rows, ∀ k, d.sourceKey db.catalog row = .ok (some k) → ∃ boundary,
      db.referenceTargetBoundary d row.fields = .ok (some boundary) ∧
        ∃ hits, db.rowSource.scanIndex target.name index.shapeKey (.point boundary) false none =
          .ok hits ∧ hits ≠ [] := by
    intro row hrow k hk
    obtain ⟨values, boundary, hvalues, hcode, hbound⟩ := hb.boundary_of_sourceKey hk
    obtain ⟨values', hvalues', hkcode, -⟩ := ReferenceDefinition.key_eq_ok_some.mp hk
    obtain rfl : values = values' := by simpa [hvalues] using hvalues'
    obtain ⟨id, t, ht, hkt, -⟩ := hholds.holds (k, row.id) ⟨row, hsrc ▸ hrow, hk, rfl⟩
    rw [htgt] at ht
    obtain ⟨kb, hkb⟩ := hf.keyed index hidx t ht
    obtain ⟨b, rfl⟩ := hb.rowKey_some hkb
    have heq := (hb.key_eq_iff (ReferenceDefinition.length_componentValues hvalues) hkcode hcode
      hkb hkt).mp rfl
    obtain ⟨hits, hscan, hit, hmem, -⟩ := (exists_hit_iff hpost hprep
      (P := fun _ => True)).mpr ⟨t.id, ⟨t, ht, hkb, rfl⟩, trivial⟩
    exact ⟨boundary, hbound, hits, heq ▸ hscan, ne_nil_of_mem hmem⟩
  obtain ⟨result, hres, hrep'⟩ := postSources_spec Posting.represents_empty
    (hsrc ▸ hholds.keyed) hhit
  rw [Set.empty_union] at hrep'
  unfold buildReferenceState
  simp only [hb.resolves, table_eq_ok.mpr hs, hres, ok_bind]
  exact congrArg Except.ok (congrArg ReferenceState.mk (hrep'.unique hrep))

/-- A database with the final rows of a batch, whose indexes follow them. -/
structure AfterBatch (db db' : Database) (name : String) (table : Table) (rows : List Row) :
    Prop where
  objects : db'.objects = (db.setRows name table rows).objects
  catalog : db'.catalog = db.catalog
  definitions : db'.indexDefinitions = db.indexDefinitions
  follow : ∀ (n : String) (t : Table), db'.objects[n]? = some t → db'.IndexesFollow n t

variable {db' : Database} {name : String} {table : Table} {rows : List Row}

section
variable (h : AfterBatch db db' name table rows)
include h

theorem AfterBatch.rowsOf (id : UInt64) :
    db'.rowsOf id = (db.setRows name table rows).rowsOf id := by
  simp only [Database.rowsOf, Database.tableById, Database.schemaTables, h.objects]

theorem AfterBatch.tables (hw : TablesWF db) (ht : db.objects[name]? = some table) :
    TablesWF db' := by
  have hset := hw.setRows ht rows
  exact ⟨fun n t hn => hset.named n t (h.objects ▸ hn),
    fun a b s t ha hb => hset.distinct a b s t (h.objects ▸ ha) (h.objects ▸ hb)⟩

theorem AfterBatch.holds (hold : ReferenceHolds (db.setRows name table rows) d) :
    ReferenceHolds db' d := by
  refine ⟨?_, ?_⟩
  · rw [h.catalog, h.rowsOf]
    exact hold.keyed
  · rw [h.catalog, h.rowsOf, h.rowsOf]
    exact hold.holds

/-- A reference stays bound when rows change. -/
theorem AfterBatch.bound (hw : TablesWF db) (ht : db.objects[name]? = some table)
    (hb : ReferenceBound db d target index) :
    ∃ target', ReferenceBound db' d target' index ∧ target'.name = target.name := by
  obtain ⟨hobj, htid, -⟩ := hb.target_eq hw
  have hw' := h.tables hw ht
  obtain ⟨target', hobj', hname, hid, hschema, hprimary⟩ : ∃ target' : Table,
      db'.objects[target.name]? = some target' ∧ target'.name = target.name ∧
        target'.id = target.id ∧ target'.schema = target.schema ∧
        target'.primaryKey = target.primaryKey := by
    rw [h.objects, Database.getElem?_setRows]
    split
    · rename_i heq
      obtain rfl : target = table := Option.some.inj (hobj.symm.trans (heq ▸ ht))
      exact ⟨_, rfl, rfl, rfl, rfl, rfl⟩
    · exact ⟨target, hobj, rfl, rfl, rfl, rfl⟩
  have hfind : db'.tableById d.targetTableId = some target' :=
    hw'.tableById_eq_some.mpr ⟨hname ▸ hobj', hid.trans htid⟩
  have hfind₀ : db.tableById d.targetTableId = some target :=
    hw.tableById_eq_some.mpr ⟨hobj, htid⟩
  refine ⟨target', ⟨?_, hb.total, hb.columns, ?_, ?_⟩, hname⟩
  · have hres := hb.resolves
    simp only [Database.referenceTargetIndex, Database.targetTable, hfind, hfind₀, ok_bind,
      Database.definitions, h.definitions, hname, hprimary] at hres ⊢
    split at hres
    · rename_i i hi
      cases hres
      rfl
    · cases hres
  · rw [h.catalog, hschema]
    exact hb.types
  · rw [hprimary]
    exact hb.constrains

end

/-- **References are sound and the check is exact.** In a ready database, a batch
that fits the rows and whose index keys can be formed is accepted exactly when
every reference holds with all its changes applied at once and the check stays
within its working-state limit. An accepted batch leaves the reverse postings
that a rebuild over the final rows finds. -/
theorem validateSourceReferenceChanges_exact (hr : ReferencesReady db)
    (ht : db.objects[name]? = some table) {changes : List RowChange}
    (hv : ValidChanges table.rows changes) (hk : db.BatchKeyed name table changes) :
    (db.validateSourceReferenceChanges db.rowSource name changes = .ok () ↔
      (∀ d ∈ valuesOf db.referenceDefinitions,
        ReferenceHolds (db.setRows name table (applyChanges table.rows changes)) d) ∧
      WithinReferenceLimit db table changes) ∧
    (db.validateSourceReferenceChanges db.rowSource name changes = .ok () →
      ∃ states, db.referenceCandidate name changes = .ok states ∧
        ∀ db', AfterBatch db db' name table (applyChanges table.rows changes) →
          ∀ d ∈ valuesOf db.referenceDefinitions, ∀ source target : Table,
            db.tableById d.tableId = some source → db.tableById d.targetTableId = some target →
            ∃ state, states[d.id]? = some state ∧
              db'.buildReferenceState d source.name target.name = .ok state) := by
  refine ⟨hr.validate_eq_ok ht hv hk, fun hok => ?_⟩
  obtain ⟨states, hcand, hposted⟩ := hr.referenceCandidate_spec ht hv hk hok
  obtain ⟨hholds, -⟩ := (hr.validate_eq_ok ht hv hk).mp hok
  refine ⟨states, hcand, fun db' hafter d hd source target hsource htarget => ?_⟩
  obtain ⟨state, hstate, hrep⟩ := hposted d hd
  refine ⟨state, hstate, ?_⟩
  have hw' := hafter.tables hr.tables ht
  obtain ⟨target₀, index, hb⟩ := hr.bound d hd
  obtain ⟨hobj, htid, -⟩ := hb.target_eq hr.tables
  obtain rfl : target = target₀ := Option.some.inj
    (htarget.symm.trans (hr.tables.tableById_eq_some.mpr ⟨hobj, htid⟩))
  obtain ⟨target', hb', hname⟩ := hafter.bound hr.tables ht hb
  obtain ⟨hobj', -, -⟩ := hb'.target_eq hw'
  -- the source table under its name, with its final rows
  obtain ⟨hsobj, hsid⟩ := hr.tables.tableById_eq_some.mp hsource
  obtain ⟨source', hsobj', hsid'⟩ : ∃ source' : Table,
      db'.objects[source.name]? = some source' ∧ source'.id = d.tableId := by
    rw [hafter.objects, Database.getElem?_setRows]
    split
    · rename_i heq
      obtain rfl : source = table := Option.some.inj (hsobj.symm.trans (heq ▸ ht))
      exact ⟨_, rfl, hsid⟩
    · exact ⟨source, hsobj, hsid⟩
  rw [← hname]
  refine buildReferenceState_eq_ok hw' hb' (hafter.follow _ _ hobj') hsobj' hsid'
    (hafter.holds (hholds d hd)) ?_
  rw [hafter.catalog, ← hw'.rowsOf_eq hsobj', hsid', hafter.rowsOf]
  exact hrep

end Rebuild

/-! ### A table that refers to itself -/

section SelfReference

/-- A table of texts, keyed by the text. -/
def textTable : Table where
  id := 1
  name := "t"
  schema := [{ name := "id", ty := .text, default := none, id := 2 }]
  rows := []
  nextRowId := 0
  rowType := none
  primaryKey := some "id"
  generatedDefaults := ∅

def textIndex : IndexDefinition where
  id := 3
  tableId := 1
  column := ""
  fieldPath := []
  components := [{ column := "id", fieldPath := [2], descending := false }]
  kind := .ordinary
  predicate := none

def selfReference : ReferenceDefinition where
  id := 4
  tableId := 1
  targetTableId := 1
  target := .primaryKey
  components := [{ column := "id", fieldPath := [2], targetColumn := "id", targetFieldPath := [2],
                   mode := .exact, targetType := .text }]

/-- The empty table with a reference from its key to itself. -/
def selfReferenced : Database :=
  { Database.empty with
    objects := (∅ : ExtTreeMap String Table).insert "t" textTable
    indexDefinitions := (∅ : ExtTreeMap String (ExtTreeMap String IndexDefinition)).insert "t"
      ((∅ : ExtTreeMap String IndexDefinition).insert "id" textIndex)
    indexes := (∅ : ExtTreeMap String TableIndexes).insert "t" ((∅ : TableIndexes).insert "id" ∅)
    referenceDefinitions := (∅ : ExtTreeMap UInt64 ReferenceDefinition).insert 4 selfReference
    referenceStates := (∅ : ExtTreeMap UInt64 ReferenceState).insert 4 ⟨∅⟩ }

theorem selfReferenced_ready [External] : ReferencesReady selfReferenced where
  tables := by
    refine ⟨fun name table h => ?_, fun a b s t ha hb _ => ?_⟩
    · obtain ⟨rfl, rfl⟩ := getElem?_singleton.mp h
      rfl
    · exact (getElem?_singleton.mp ha).1.symm.trans (getElem?_singleton.mp hb).1
  ascending := by
    intro name table h
    obtain ⟨rfl, rfl⟩ := getElem?_singleton.mp h
    exact List.Pairwise.nil
  follow := by
    intro name table h
    obtain ⟨rfl, rfl⟩ := getElem?_singleton.mp h
    refine ⟨?_, ?_, ?_, ?_⟩
    · intro shape d hd
      obtain ⟨rfl, rfl⟩ := getElem?_singleton.mp hd
      rfl
    · intro d _ row hrow
      cases hrow
    · intro d hd
      obtain rfl := mem_valuesOf_singleton.mp hd
      exact ⟨∅, getElem?_singleton.mpr ⟨rfl, rfl⟩, by
        simpa [entriesOf, textTable] using Posting.represents_empty⟩
    · intro d _ _ a ha
      cases ha
  listed := by
    intro id d h
    obtain ⟨rfl, rfl⟩ := getElem?_singleton.mp h
    rfl
  sourced := by
    intro d hd
    obtain rfl := mem_valuesOf_singleton.mp hd
    rfl
  bound := by
    intro d hd
    obtain rfl := mem_valuesOf_singleton.mp hd
    exact ⟨textTable, textIndex, rfl, rfl, rfl, by simp [selfReference]; rfl, rfl⟩
  posted := by
    intro d hd
    obtain rfl := mem_valuesOf_singleton.mp hd
    refine ⟨⟨∅⟩, getElem?_singleton.mpr ⟨rfl, rfl⟩, ?_⟩
    rw [show selfReferenced.rowsOf selfReference.tableId = [] from rfl]
    simpa [entriesOf] using Posting.represents_empty
  holds := by
    intro d hd
    obtain rfl := mem_valuesOf_singleton.mp hd
    refine ⟨fun row hrow => ?_, fun e he => ?_⟩
    · cases hrow
    · obtain ⟨row, hrow, -⟩ := he
      cases hrow

/-- A text of one letter. -/
def letters (n : ℕ) : String := String.ofList (replicate n 'a')

theorem utf8_letters (n : ℕ) : utf8 (letters n) = replicate n 97 := by
  have hflat : (replicate n 'a').flatMap String.utf8EncodeChar = replicate n 97 := by
    induction n with
    | zero => rfl
    | succ n ih => exact congrArg (97 :: ·) ih
  rw [utf8, letters, String.toUTF8, String.toByteArray_ofList, ← hflat]
  simp [List.utf8Encode]

/-- The row whose key is the text of as many letters as its identity. -/
def textRow (n : ℕ) : Row := ⟨n, [("id", .text (letters n))]⟩

def textKey (n : ℕ) : List UInt8 := replicate n 97 ++ [0, 0]

theorem encodeEscaped_letters (n : ℕ) :
    OrderedKey.encodeEscaped (utf8 (letters n)) ++ [] = textKey n := by
  rw [utf8_letters, textKey, append_nil]
  induction n with
  | zero => rfl
  | succ n ih => rw [replicate_succ, OrderedKey.encodeEscaped, if_neg (by decide), ih]; rfl

theorem length_textKey (n : ℕ) : (textKey n).length = n + 2 := by simp [textKey]

variable {n : ℕ}

theorem rowKey_textRow (h : n ≤ 65000) :
    rowKey selfReferenced.catalog textTable.schema "t" textIndex (textRow n) =
      .ok (some (textKey n)) := by
  have hdef : rowKey selfReferenced.catalog textTable.schema "t" textIndex (textRow n) =
    (do let k ← limitedKey (OrderedKey.encodeEscaped (utf8 (letters n)) ++ []); pure (some k)) :=
    rfl
  rw [hdef, encodeEscaped_letters, limitedKey, if_neg]
  · rfl
  · rw [length_textKey, COMPLETE_KEY_OVERHEAD, OrderedKey.MAX_COMPLETE_INDEX_KEY_BYTES]
    omega

theorem sourceKey_textRow (h : n ≤ 65000) :
    selfReference.sourceKey selfReferenced.catalog (textRow n) = .ok (some (textKey n)) := by
  have hdef : selfReference.sourceKey selfReferenced.catalog (textRow n) =
    (do let k ← ReferenceDefinition.limitedReferenceKey
          (OrderedKey.encodeEscaped (utf8 (letters n)) ++ [])
        pure (some k)) := rfl
  rw [hdef, encodeEscaped_letters, ReferenceDefinition.limitedReferenceKey, if_neg]
  · rfl
  · rw [length_textKey, COMPLETE_KEY_OVERHEAD, OrderedKey.MAX_COMPLETE_INDEX_KEY_BYTES]
    omega

/-- An insertion of such rows. -/
def textBatch (ns : List ℕ) : List RowChange := ns.map fun n => .inserted (textRow n)

variable {ns : List ℕ}

theorem mem_textBatch {change : RowChange} :
    change ∈ textBatch ns ↔ ∃ n ∈ ns, .inserted (textRow n) = change := mem_map

theorem textBatch_valid (h : ns.Nodup) : ValidChanges textTable.rows (textBatch ns) := by
  refine ⟨?_, ?_, ?_⟩
  · rw [textBatch, map_map]
    exact (map_id ns).symm ▸ h
  · intro change hc
    obtain ⟨n, -, rfl⟩ := mem_textBatch.mp hc
    rfl
  · intro change hc row hrow
    obtain ⟨n, -, rfl⟩ := mem_textBatch.mp hc
    obtain rfl := Option.some.inj hrow
    rfl

theorem textBatch_keyed (h : ∀ n ∈ ns, n ≤ 65000) :
    selfReferenced.BatchKeyed "t" textTable (textBatch ns) := by
  intro d hd change hc
  obtain rfl := mem_valuesOf_singleton.mp hd
  obtain ⟨n, hn, rfl⟩ := mem_textBatch.mp hc
  exact ⟨_, rowKey_textRow (h n hn)⟩

theorem applyChanges_textBatch : applyChanges textTable.rows (textBatch ns) = ns.map textRow := by
  induction ns with
  | nil => rfl
  | cons n ns ih => exact congrArg (textRow n :: ·) ih

theorem textBatch_unique (h : ∀ n ∈ ns, n ≤ 65000) :
    KeyUnique (rowKey selfReferenced.catalog textTable.schema "t" textIndex) (ns.map textRow) := by
  intro a ha b hb k hka hkb
  obtain ⟨n, hn, rfl⟩ := mem_map.mp ha
  obtain ⟨m, hm, rfl⟩ := mem_map.mp hb
  rw [rowKey_textRow (h n hn)] at hka
  rw [rowKey_textRow (h m hm)] at hkb
  have hlen := congrArg List.length (Option.some.inj (Except.ok.inj (hka.trans hkb.symm)))
  rw [length_textKey, length_textKey] at hlen
  exact congrArg textRow (by omega)

/-- Each row refers to itself. -/
theorem textBatch_holds (h : ∀ n ∈ ns, n ≤ 65000) :
    ReferenceHolds (selfReferenced.setRows "t" textTable (ns.map textRow)) selfReference := by
  have hrows : (selfReferenced.setRows "t" textTable (ns.map textRow)).rowsOf 1 =
    ns.map textRow := rfl
  refine ⟨?_, ?_⟩
  · rw [show selfReference.tableId = 1 from rfl, hrows]
    intro row hrow
    obtain ⟨n, hn, rfl⟩ := mem_map.mp hrow
    exact ⟨_, sourceKey_textRow (h n hn)⟩
  · rintro ⟨k, id⟩ ⟨row, hrow, hk, hid⟩
    exact ⟨id, row, hrow, hk, hid⟩

theorem changeBytes_textRow (h : n ≤ 65000) :
    selfReferenced.changeBytes selfReference true true (.inserted (textRow n)) = 3 * (n + 66) := by
  have htarget : selfReference.targetKey selfReferenced.catalog (textRow n) =
      .ok (some (textKey n)) :=
    sourceKey_textRow h
  have hboundary : selfReferenced.boundaryOf selfReference (textRow n) =
      .ok (some (textKey n)) := by
    rw [← encodeEscaped_letters]
    rfl
  simp only [changeBytes, RowChange.inserted, if_true, imageOf, htarget, hboundary,
    sourceKey_textRow h, keyBytes, length_textKey]
  omega

theorem batchBytes_textBatch (h : ∀ n ∈ ns, n ≤ 65000) :
    selfReferenced.batchBytes selfReference (selfReference.tableId = textTable.id)
      (selfReference.targetTableId = textTable.id) (textBatch ns) =
      (ns.map fun n => 3 * (n + 66)).sum := by
  rw [batchBytes, textBatch, map_map]
  exact congrArg List.sum (map_congr_left fun n hn => changeBytes_textRow (h n hn))

/-- The limit is real: 400 rows that each refer to themselves, under distinct
keys of 60000 letters and more, are refused. -/
theorem validateSourceReferenceChanges_refuses_large_batch :
    ∃ (_ : External) (ns : List ℕ),
      ReferencesReady selfReferenced ∧
      selfReferenced.objects["t"]? = some textTable ∧
      ValidChanges textTable.rows (textBatch ns) ∧
      selfReferenced.BatchKeyed "t" textTable (textBatch ns) ∧
      (∀ d ∈ valuesOf (selfReferenced.definitions "t"),
        KeyUnique (rowKey selfReferenced.catalog textTable.schema "t" d)
          (applyChanges textTable.rows (textBatch ns))) ∧
      (∀ d ∈ valuesOf selfReferenced.referenceDefinitions,
        ReferenceHolds (selfReferenced.setRows "t" textTable
          (applyChanges textTable.rows (textBatch ns))) d) ∧
      selfReferenced.validateSourceReferenceChanges selfReferenced.rowSource "t" (textBatch ns) ≠
        .ok () := by
  let _ : External := ⟨fun _ => 0, fun _ => 0, fun _ => ""⟩
  have hbound : ∀ n ∈ List.range' 60000 400, n ≤ 65000 := by
    intro n hn
    rw [mem_range'_1] at hn
    omega
  have ht : selfReferenced.objects["t"]? = some textTable := getElem?_singleton.mpr ⟨rfl, rfl⟩
  have hv : ValidChanges textTable.rows (textBatch (List.range' 60000 400)) :=
    textBatch_valid nodup_range'
  refine ⟨inferInstance, List.range' 60000 400, selfReferenced_ready, ht, hv,
    textBatch_keyed hbound, ?_, ?_, ?_⟩
  · intro d hd
    obtain rfl := mem_valuesOf_singleton.mp hd
    exact applyChanges_textBatch ▸ textBatch_unique hbound
  · intro d hd
    obtain rfl := mem_valuesOf_singleton.mp hd
    exact applyChanges_textBatch ▸ textBatch_holds hbound
  · intro hok
    obtain ⟨-, hlimit⟩ := (selfReferenced_ready.validate_eq_ok ht hv
      (textBatch_keyed hbound)).mp hok
    have hle := hlimit selfReference (mem_valuesOf_singleton.mpr rfl)
    rw [batchBytes_textBatch hbound] at hle
    have hsum : (List.range' 60000 400).length • (3 * (60000 + 66)) ≤
        ((List.range' 60000 400).map fun n => 3 * (n + 66)).sum := by
      rw [← length_map (fun n => 3 * (n + 66))]
      refine card_nsmul_le_sum _ _ fun x hx => ?_
      obtain ⟨n, hn, rfl⟩ := mem_map.mp hx
      rw [mem_range'_1] at hn
      omega
    rw [length_range', smul_eq_mul] at hsum
    exact absurd (hsum.trans hle) (by decide)

/-- Two rows that refer to themselves are accepted. -/
theorem validateSourceReferenceChanges_exact_two_rows :
    ∃ (_ : External),
      selfReferenced.validateSourceReferenceChanges selfReferenced.rowSource "t"
        (textBatch [1, 2]) =
        .ok () := by
  let _ : External := ⟨fun _ => 0, fun _ => 0, fun _ => ""⟩
  have hbound : ∀ n ∈ [1, 2], n ≤ 65000 := by decide
  refine ⟨inferInstance, ((validateSourceReferenceChanges_exact selfReferenced_ready
    (getElem?_singleton.mpr ⟨rfl, rfl⟩) (textBatch_valid (by decide))
    (textBatch_keyed hbound)).1).mpr ⟨?_, ?_⟩⟩
  · intro d hd
    obtain rfl := mem_valuesOf_singleton.mp hd
    exact applyChanges_textBatch ▸ textBatch_holds hbound
  · intro d hd
    obtain rfl := mem_valuesOf_singleton.mp hd
    rw [batchBytes_textBatch hbound]
    decide

end SelfReference
end UnionId
