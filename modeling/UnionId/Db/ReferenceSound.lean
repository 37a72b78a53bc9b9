import UnionId.Db.ReferenceGather
import UnionId.Db.Tables
import UnionId.Lib.Integrity

/-!
# References stay sound under batches

The check of a batch looks at changed rows only. It accepts exactly the batches
after which every reference holds, apart from its working-state limit; and the
reverse postings it leaves are those of a rebuild.
-/
namespace UnionId

open Lib Std List Database

/-- A reference holds: every source key can be formed, and a present one has a
target row. -/
structure ReferenceHolds (db : Database) (definition : ReferenceDefinition) : Prop where
  keyed : Keyed (definition.sourceKey db.catalog) (db.rowsOf definition.tableId)
  holds : Integrity.Holds
    (entriesOf (definition.sourceKey db.catalog) (db.rowsOf definition.tableId))
    (entriesOf (definition.targetKey db.catalog) (db.rowsOf definition.targetTableId))

/-- The state of a database the check relies on: tables in order, postings that
follow the rows, references resolved, posted and holding. -/
structure ReferencesReady [External] (db : Database) : Prop where
  tables : TablesWF db
  ascending : ∀ (name : String) (table : Table), db.objects[name]? = some table →
    RowsAscending table.rows
  follow : ∀ (name : String) (table : Table), db.objects[name]? = some table →
    db.IndexesFollow name table
  listed : ∀ (id : UInt64) (d : ReferenceDefinition), db.referenceDefinitions[id]? = some d →
    d.id = id
  sourced : ∀ d ∈ valuesOf db.referenceDefinitions, (db.tableById d.tableId).isSome
  bound : ∀ d ∈ valuesOf db.referenceDefinitions, ∃ target index, ReferenceBound db d target index
  posted : ∀ d ∈ valuesOf db.referenceDefinitions, ∃ state, db.referenceStates[d.id]? = some state ∧
    state.sources.Represents (entriesOf (d.sourceKey db.catalog) (db.rowsOf d.tableId))
  holds : ∀ d ∈ valuesOf db.referenceDefinitions, ReferenceHolds db d

/-! ## The two checks -/

namespace Database

variable {db : Database} {definition : ReferenceDefinition} {batch : ReferenceBatch}
  {source : RowSource} {excluded : List RowId} {shape : String} {E : Set (List UInt8 × RowId)}

theorem checkRemoved_eq_ok {keys : List (List UInt8)} :
    checkRemoved definition source batch excluded keys = .ok () ↔
      ∀ k ∈ keys, k ∈ batch.newTargets ∨ (k ∉ batch.sourceKeys ∧
        source.referenceSourceExists definition.id k excluded = .ok false) := by
  induction keys with
  | nil => simp [checkRemoved]
  | cons k keys ih =>
    rw [forall_mem_cons, ← ih, checkRemoved]
    by_cases hnew : k ∈ batch.newTargets
    · simp [hnew]
    · by_cases hsource : k ∈ batch.sourceKeys
      · simp [hnew, hsource]
      · simp only [hnew, hsource, if_false, false_or, not_false_eq_true, true_and, bind_eq_ok]
        constructor
        · rintro ⟨found, hfound, h⟩
          cases found
          · exact ⟨hfound, by simpa using h⟩
          · cases h
        · rintro ⟨hfound, h⟩
          exact ⟨false, hfound, by simpa using h⟩

theorem checkSources_eq_ok {target : String} {targetChanged : Bool} {changedIds : List RowId}
    {keys : List (List UInt8 × List UInt8)} :
    checkSources source batch target shape targetChanged changedIds keys = .ok () ↔
      ∀ e ∈ keys, e.1 ∈ batch.newTargets ∨ ∃ hits,
        source.scanIndex target shape (.point e.2) false none = .ok hits ∧
        ∃ hit ∈ hits, targetChanged → hit.rowId ∉ changedIds := by
  induction keys with
  | nil => simp [checkSources]
  | cons e keys ih =>
    obtain ⟨k, boundary⟩ := e
    rw [forall_mem_cons, ← ih, checkSources]
    by_cases hnew : k ∈ batch.newTargets
    · simp [hnew]
    · simp only [hnew, if_false, false_or, bind_eq_ok]
      constructor
      · rintro ⟨hits, hhits, h⟩
        obtain ⟨hany, h⟩ := of_required h
        refine ⟨⟨hits, hhits, ?_⟩, h⟩
        obtain ⟨hit, hmem, hcond⟩ := any_eq_true.mp hany
        exact ⟨hit, hmem, by intro htc; simpa [htc] using hcond⟩
      · rintro ⟨⟨hits, hhits, hit, hmem, hcond⟩, h⟩
        refine ⟨hits, hhits, ?_⟩
        rw [if_pos, h]
        refine any_eq_true.mpr ⟨hit, hmem, ?_⟩
        cases targetChanged
        · rfl
        · simpa using hcond rfl

/-! ## Reading the postings -/

theorem memoryReferenceSourceExists_eq_false {state : ReferenceState} {id : UInt64}
    (hstate : db.referenceStates[id]? = some state)
    (hrep : state.sources.Represents E) {k : List UInt8} :
    db.memoryReferenceSourceExists id k excluded = .ok false ↔
      ∀ i, (k, i) ∈ E → i ∈ excluded := by
  simp only [memoryReferenceSourceExists, hstate, pure_eq_ok, Except.ok.injEq]
  rw [any_eq_false]
  simp only [hrep.mem_idsAt, decide_eq_true_eq, not_not]

theorem exists_hit_iff {name : String} {posting : IndexPosting}
    (hpost : (db.tableIndexes name)[shape]? = some posting)
    (hrep : posting.Represents E) {b : List UInt8} {P : RowId → Prop} :
    (∃ hits, db.rowSource.scanIndex name shape (.point b) false none = .ok hits ∧
      ∃ hit ∈ hits, P hit.rowId) ↔ ∃ id, (b, id) ∈ E ∧ P id := by
  have hscan : db.rowSource.scanIndex name shape (.point b) false none =
      .ok ((posting.scan (EncodedIndexBounds.point b).contains false).map fun e => ⟨e.1, e.2⟩) := by
    simp [rowSource, planned, hpost, limitHits]
  rw [hscan]
  constructor
  · rintro ⟨_, ⟨⟩, hit, hmem, hP⟩
    obtain ⟨e, he, rfl⟩ := mem_map.mp hmem
    obtain ⟨hin, hid⟩ := Posting.mem_scan.mp he
    rw [EncodedIndexBounds.contains_point] at hin
    exact ⟨e.2, hrep.mem_idsAt.mp (hin ▸ hid), hP⟩
  · rintro ⟨id, hid, hP⟩
    refine ⟨_, rfl, ⟨b, id⟩, mem_map.mpr ⟨(b, id), Posting.mem_scan.mpr ⟨?_, ?_⟩, rfl⟩, hP⟩
    · exact (EncodedIndexBounds.contains_point b b).mpr rfl
    · exact hrep.mem_idsAt.mpr hid

end Database

/-! ## Targets -/

section Targets
variable {db : Database} {d : ReferenceDefinition} {target : Table}
  {index : IndexDefinition}

theorem ReferenceBound.target_eq (hb : ReferenceBound db d target index) (hw : TablesWF db) :
    db.objects[target.name]? = some target ∧ target.id = d.targetTableId ∧
      index ∈ valuesOf (db.definitions target.name) := by
  have h := hb.resolves
  unfold referenceTargetIndex at h
  obtain ⟨t, ht, h⟩ := of_bind h
  unfold targetTable at ht
  split at ht
  · rename_i t' hfind
    cases ht
    split at h
    · rename_i i hi
      cases h
      obtain ⟨hobj, hid⟩ := hw.tableById_eq_some.mp hfind
      exact ⟨hobj, hid, mem_of_find?_eq_some hi⟩
    · cases h
  · cases ht

/-- Every row of an index without a predicate has a key, if it can be formed. -/
theorem ReferenceBound.rowKey_some (hb : ReferenceBound db d target index) {name : String}
    {row : Row} {k : Option (List UInt8)}
    (h : rowKey db.catalog target.schema name index row = .ok k) : ∃ b, k = some b := by
  have hinc : index.includes row.fields = true := by simp [IndexDefinition.includes, hb.total]
  simp only [rowKey, includedKey, hinc, if_true] at h
  obtain ⟨b, -, rfl⟩ := of_bind_pure h
  exact ⟨b, rfl⟩

/-- What the check knows about the target table. -/
theorem ReferencesReady.targets [External] (hr : ReferencesReady db)
    (hb : ReferenceBound db d target index) : db.rowsOf d.targetTableId = target.rows ∧
      (∀ t ∈ target.rows, ∃ b k, rowKey db.catalog target.schema target.name index t
        = .ok (some b) ∧
        d.targetKey db.catalog t = .ok (some k)) ∧
      Integrity.Unique (entriesOf (d.targetKey db.catalog) target.rows) := by
  obtain ⟨hobj, hid, hidx⟩ := hb.target_eq hr.tables
  have hf := hr.follow _ _ hobj
  have hkeys : ∀ t ∈ target.rows, ∃ b k,
      rowKey db.catalog target.schema target.name index t = .ok (some b) ∧
        d.targetKey db.catalog t = .ok (some k) := by
    intro t ht
    obtain ⟨kb, hkb⟩ := hf.keyed index hidx t ht
    obtain ⟨b, rfl⟩ := hb.rowKey_some hkb
    obtain ⟨k, hk⟩ := hb.targetKey_of_rowKey hkb
    exact ⟨b, k, hkb, hk⟩
  refine ⟨hid ▸ hr.tables.rowsOf_eq hobj, hkeys, ?_⟩
  rintro k a b ⟨s, hs, hks, rfl⟩ ⟨t, ht, hkt, rfl⟩
  obtain ⟨bs, -, hbs, -⟩ := hkeys s hs
  obtain ⟨bt, -, hbt, -⟩ := hkeys t ht
  obtain ⟨values, hv, hcode, -⟩ := hb.rowKey_eq_ok hbs
  obtain ⟨values', hv', hkcode, -⟩ := ReferenceDefinition.key_eq_ok_some.mp hks
  obtain rfl : values = values' := by simpa [hv] using hv'
  have heq : bs = bt := (hb.key_eq_iff (ReferenceDefinition.length_componentValues hv) hkcode hcode
    hbt hkt).mp rfl
  rw [hf.unique index hidx hb.constrains s hs t ht bs hbs (heq ▸ hbt)]

end Targets

/-! ## One reference under a batch -/

section Batch
variable {κ : Type} {key : Row → Result (Option κ)} {rows : List Row} {changes : List RowChange}

/-- The identities a batch touches on one side of a reference. -/
def touched (changed : Bool) (changes : List RowChange) : Set RowId :=
  {id | changed ∧ id ∈ changes.map RowChange.rowId}

/-- The entries a batch adds on one side of a reference. -/
def added (key : Row → Result (Option κ)) (changed : Bool) (changes : List RowChange) :
    Set (κ × RowId) :=
  {e | changed ∧ e ∈ entriesOf key (afters changes)}

variable {changed : Bool}

/-- The entries of one side after a batch. -/
theorem entriesOf_revise (key : Row → Result (Option κ))
    (h : changed → RowsAscending rows ∧ ValidChanges rows changes) :
    entriesOf key (if changed then applyChanges rows changes else rows) =
      Integrity.revise (entriesOf key rows) (touched changed changes)
        (added key changed changes) := by
  cases changed with
  | false => ext e; simp [Integrity.revise, touched, added]
  | true =>
    obtain ⟨hasc, hv⟩ := h rfl
    rw [if_pos rfl, entriesOf_applyChanges hasc hv]
    ext e
    simp only [Integrity.revise, touched, added, true_and, Set.mem_union, Set.mem_sdiff,
      Set.mem_ofPred_eq]
    refine or_congr_left (and_congr_right fun he => not_congr ?_)
    rw [mem_entriesOf_befores]
    constructor
    · rintro ⟨c, hc, row, hb, -, hid⟩
      exact mem_map.mpr ⟨c, hc, by rw [RowChange.rowId_of_before hb, hid]⟩
    · intro hmem
      obtain ⟨c, hc, hcid⟩ := mem_map.mp hmem
      obtain ⟨row, hrow, hk, hid⟩ := he
      exact ⟨c, hc, row, hv.before_of_mem hasc hc hrow (hcid.trans hid.symm), hk, hid⟩

/-- Keys can be formed after a batch exactly when they can for its new images. -/
theorem keyed_after (key : Row → Result (Option κ)) (h : changed → ValidChanges rows changes)
    (hk : Keyed key rows) : Keyed key (if changed then applyChanges rows changes else rows) ↔
      (changed → ∀ change ∈ changes, ∃ k, imageOf key change.after = .ok k) := by
  cases changed with
  | false => simpa using hk
  | true =>
    have hv := h rfl
    simp only [if_true, forall_const]
    constructor
    · intro hkeyed change hc
      cases ha : change.after with
      | none => exact ⟨none, rfl⟩
      | some row => exact hkeyed row ((mem_applyChanges hv).mpr (.inl ⟨change, hc, ha⟩))
    · intro hnew row hrow
      obtain ⟨change, hc, ha⟩ | ⟨hmem, -⟩ := (mem_applyChanges hv).mp hrow
      · obtain ⟨k, hk⟩ := hnew change hc
        rw [ha] at hk
        exact ⟨k, hk⟩
      · exact hk row hmem

variable {k : κ}

theorem provides_added : Integrity.Provides (added key changed changes) k ↔
      ∃ change ∈ changes, imageOf key (if changed then change.after else none) =
        .ok (some k) := by
  constructor
  · rintro ⟨id, hchanged, he⟩
    obtain ⟨change, hc, row, ha, hk, -⟩ := mem_entriesOf_afters.mp he
    exact ⟨change, hc, by rw [if_pos hchanged, ha]; exact hk⟩
  · rintro ⟨change, hc, hk⟩
    cases hchanged : changed with
    | false => simp [hchanged, imageOf] at hk
    | true =>
      cases ha : change.after with
      | none => simp [hchanged, ha, imageOf] at hk
      | some row =>
        rw [hchanged, if_pos rfl, ha] at hk
        exact ⟨row.id, rfl, mem_entriesOf_afters.mpr ⟨change, hc, row, ha, hk, rfl⟩⟩

/-- The keys that lose their row. -/
theorem exists_touched_iff (h : changed → RowsAscending rows ∧ ValidChanges rows changes) :
    (∃ id, (k, id) ∈ entriesOf key rows ∧ id ∈ touched changed changes) ↔
      ∃ change ∈ changes, imageOf key (if changed then change.before else none) =
        .ok (some k) := by
  constructor
  · rintro ⟨id, ⟨row, hrow, hk, hid⟩, hchanged, hmem⟩
    obtain ⟨hasc, hv⟩ := h hchanged
    obtain ⟨change, hc, hcid⟩ := mem_map.mp hmem
    refine ⟨change, hc, ?_⟩
    rw [if_pos hchanged, hv.before_of_mem hasc hc hrow (hcid.trans hid.symm)]
    exact hk
  · rintro ⟨change, hc, hk⟩
    cases hchanged : changed with
    | false => simp [hchanged, imageOf] at hk
    | true =>
      obtain ⟨hasc, hv⟩ := h hchanged
      cases hb : change.before with
      | none => simp [hchanged, hb, imageOf] at hk
      | some row =>
        rw [hchanged, if_pos rfl, hb] at hk
        obtain ⟨hrow, hid⟩ := hv.mem_of_before hc hb
        exact ⟨row.id, ⟨row, hrow, hk, rfl⟩, rfl, mem_map.mpr ⟨change, hc, hid.symm⟩⟩

end Batch

section Exact
variable [External] {db : Database} {name : String} {table : Table} {changes : List RowChange}
  {d : ReferenceDefinition}

/-- The rows of a side of a reference after a batch. -/
theorem ReferencesReady.rowsOf_after (hr : ReferencesReady db)
    (ht : db.objects[name]? = some table) (id : UInt64) :
    (db.setRows name table (applyChanges table.rows changes)).rowsOf id =
      if decide (id = table.id) then applyChanges (db.rowsOf id) changes else db.rowsOf id := by
  rw [hr.tables.rowsOf_setRows ht]
  by_cases h : id = table.id
  · simp [h, hr.tables.rowsOf_eq ht]
  · simp [h]

/-- The batch record of a whole pass. -/
def WholeBatch (db : Database) (d : ReferenceDefinition) (sourceChanged targetChanged : Bool)
    (changes : List RowChange) (batch : ReferenceBatch) : Prop :=
  BatchOf batch (db.targetKeysOf d targetChanged RowChange.before changes)
    (db.targetKeysOf d targetChanged RowChange.after changes)
    (db.sourceKeysOf d sourceChanged changes)

variable {batch : ReferenceBatch} {sourceChanged targetChanged : Bool} {target : Table}
  {index : IndexDefinition}

section
variable (h : WholeBatch db d sourceChanged targetChanged changes batch)
include h

omit [External] in
theorem WholeBatch.mem_newTargets (k : List UInt8) :
    k ∈ batch.newTargets ↔
      Integrity.Provides (added (d.targetKey db.catalog) targetChanged changes) k := by
  rw [h.mem_new, provides_added]
  rfl

omit [External] in
theorem WholeBatch.mem_sourceKeys (hb : ReferenceBound db d target index) (k : List UInt8) :
    k ∈ batch.sourceKeys ↔
      Integrity.Provides (added (d.sourceKey db.catalog) sourceChanged changes) k := by
  rw [provides_added]
  constructor
  · intro hk
    obtain ⟨b, hkb⟩ := Option.isSome_iff_exists.mp (ExtTreeMap.isSome_getElem?_iff_mem.mpr hk)
    obtain ⟨change, hc, hkey, -⟩ := h.sound k b hkb
    exact ⟨change, hc, hkey⟩
  · rintro ⟨change, hc, hkey⟩
    cases himage : (if sourceChanged then change.after else none) with
    | none => simp [himage, imageOf] at hkey
    | some row =>
      rw [himage] at hkey
      obtain ⟨-, b, -, -, hbound⟩ := hb.boundary_of_sourceKey hkey
      exact h.complete k b ⟨change, hc, himage ▸ hkey, himage ▸ hbound⟩

omit [External] in
/-- The removal check decides whether removals are covered. -/
theorem checkRemoved_iff (hb : ReferenceBound db d target index) {rows targetRows : List Row}
    (hT : targetChanged → RowsAscending targetRows ∧ ValidChanges targetRows changes)
    {state : ReferenceState} (hstate : db.referenceStates[d.id]? = some state)
    (hrep : state.sources.Represents (entriesOf (d.sourceKey db.catalog) rows)) :
    Database.checkRemoved d db.rowSource batch
        (if sourceChanged then changes.map RowChange.rowId else [])
        batch.removedTargets.toList = .ok () ↔
      Integrity.RemovalsCovered (entriesOf (d.sourceKey db.catalog) rows)
        (entriesOf (d.targetKey db.catalog) targetRows)
        (added (d.sourceKey db.catalog) sourceChanged changes)
        (added (d.targetKey db.catalog) targetChanged changes)
        (touched sourceChanged changes) (touched targetChanged changes) := by
  have hex : ∀ id, id ∈ (if sourceChanged then changes.map RowChange.rowId else []) ↔
      id ∈ touched sourceChanged changes := by
    intro id
    cases sourceChanged <;> simp [touched]
  have hexists : ∀ k, db.rowSource.referenceSourceExists d.id k
      (if sourceChanged then changes.map RowChange.rowId else []) = .ok false ↔
        ∀ id, (k, id) ∈ entriesOf (d.sourceKey db.catalog) rows →
          id ∈ touched sourceChanged changes := by
    intro k
    simp only [← hex]
    exact memoryReferenceSourceExists_eq_false hstate hrep
  have hremoved : ∀ k, k ∈ batch.removedTargets.toList ↔
      ∃ id, (k, id) ∈ entriesOf (d.targetKey db.catalog) targetRows ∧
        id ∈ touched targetChanged changes := by
    intro k
    rw [ExtTreeSet.mem_toList, h.mem_removed, exists_touched_iff hT]
    rfl
  simp only [checkRemoved_eq_ok, h.mem_newTargets, h.mem_sourceKeys hb, hexists, hremoved]
  constructor
  · intro hall e he htouched
    exact hall e.1 ⟨e.2, he, htouched⟩
  · rintro hall k ⟨id, he, htouched⟩
    exact hall (k, id) he htouched

/-- The source check decides whether new sources are covered. -/
theorem checkSources_iff (hb : ReferenceBound db d target index)
    (hkeys : ∀ t ∈ target.rows, ∃ b k,
      rowKey db.catalog target.schema target.name index t = .ok (some b) ∧
        d.targetKey db.catalog t = .ok (some k)) {posting : IndexPosting}
    (hpost : (db.tableIndexes target.name)[index.shapeKey]? = some posting)
    (hrep : posting.Represents
      (entriesOf (rowKey db.catalog target.schema target.name index) target.rows)) :
    Database.checkSources db.rowSource batch target.name index.shapeKey targetChanged
        (changes.map RowChange.rowId) batch.sourceKeys.toList = .ok () ↔
      Integrity.SourcesCovered (entriesOf (d.targetKey db.catalog) target.rows)
        (added (d.sourceKey db.catalog) sourceChanged changes)
        (added (d.targetKey db.catalog) targetChanged changes) (touched targetChanged changes) := by
  -- a boundary in the target index finds exactly the rows with the source's key
  have hsame : ∀ k b, (k, b) ∈ db.sourceKeysOf d sourceChanged changes → ∀ id,
      (b, id) ∈ entriesOf (rowKey db.catalog target.schema target.name index) target.rows ↔
        (k, id) ∈ entriesOf (d.targetKey db.catalog) target.rows := by
    rintro k b ⟨change, hc, hkey, hbound⟩ id
    cases himage : (if sourceChanged then change.after else none) with
    | none => simp [himage, imageOf] at hkey
    | some row =>
      rw [himage] at hkey hbound
      obtain ⟨values, b', hvalues, hcode, hbound'⟩ := hb.boundary_of_sourceKey hkey
      obtain rfl : b = b' := by
        have := hbound.symm.trans hbound'
        simpa using this
      obtain ⟨values', hvalues', hkcode, -⟩ := ReferenceDefinition.key_eq_ok_some.mp hkey
      obtain rfl : values = values' := by simpa [hvalues] using hvalues'
      have hlen := ReferenceDefinition.length_componentValues hvalues
      constructor
      · rintro ⟨t, ht, hbt, hid⟩
        obtain ⟨-, kt, -, hkt⟩ := hkeys t ht
        have := (hb.key_eq_iff hlen hkcode hcode hbt hkt).mpr rfl
        exact ⟨t, ht, this ▸ hkt, hid⟩
      · rintro ⟨t, ht, hkt, hid⟩
        obtain ⟨bt, -, hbt, -⟩ := hkeys t ht
        have := (hb.key_eq_iff hlen hkcode hcode hbt hkt).mp rfl
        exact ⟨t, ht, this ▸ hbt, hid⟩
  have hnot : ∀ id, (targetChanged → id ∉ changes.map RowChange.rowId) ↔
      id ∉ touched targetChanged changes := by
    intro id
    simp only [touched, Set.mem_ofPred_eq, not_and]
  have hhit : ∀ b, (∃ hits, db.rowSource.scanIndex target.name index.shapeKey
      (.point b) false none =
      .ok hits ∧ ∃ hit ∈ hits, targetChanged → hit.rowId ∉ changes.map RowChange.rowId) ↔
        ∃ id, (b, id) ∈ entriesOf (rowKey db.catalog target.schema target.name index) target.rows ∧
          id ∉ touched targetChanged changes := by
    intro b
    simp only [← hnot]
    exact exists_hit_iff hpost hrep
      (P := fun id => targetChanged → id ∉ changes.map RowChange.rowId)
  simp only [checkSources_eq_ok, hhit, h.mem_newTargets]
  constructor
  · intro hall k hk
    obtain ⟨b, hkb⟩ := Option.isSome_iff_exists.mp
      (ExtTreeMap.isSome_getElem?_iff_mem.mpr ((h.mem_sourceKeys hb k).mpr hk))
    obtain hnew | ⟨id, hid, hid'⟩ :=
      hall (k, b) (ExtTreeMap.mem_toList_iff_getElem?_eq_some.mpr hkb)
    · exact .inl hnew
    · exact .inr ⟨id, (hsame k b (h.sound k b hkb) id).mp hid, hid'⟩
  · rintro hall ⟨k, b⟩ he
    have hkb := ExtTreeMap.mem_toList_iff_getElem?_eq_some.mp he
    have hk := ExtTreeMap.isSome_getElem?_iff_mem.mp (Option.isSome_iff_exists.mpr ⟨b, hkb⟩)
    obtain hnew | ⟨id, hid, hid'⟩ := hall k ((h.mem_sourceKeys hb k).mp hk)
    · exact .inl hnew
    · exact .inr ⟨id, (hsame k b (h.sound k b hkb) id).mpr hid, hid'⟩

end

/-- **One reference under a batch.** The check accepts exactly when the reference
holds afterwards, within the working-state limit. -/
theorem ReferencesReady.validateReference_eq_ok (hr : ReferencesReady db)
    (ht : db.objects[name]? = some table) (hd : d ∈ valuesOf db.referenceDefinitions)
    (hv : ValidChanges table.rows changes) (hk : db.BatchKeyed name table changes)
    (haffected : d.tableId = table.id ∨ d.targetTableId = table.id) :
    db.validateReference db.rowSource table.id changes d = .ok () ↔
      ReferenceHolds (db.setRows name table (applyChanges table.rows changes)) d ∧
        db.batchBytes d (d.tableId = table.id) (d.targetTableId = table.id) changes ≤
          GENERAL_WORKING_MAX_BYTES := by
  obtain ⟨target, index, hb⟩ := hr.bound d hd
  obtain ⟨hobj, htid, hidx⟩ := hb.target_eq hr.tables
  obtain ⟨hT, hTkeys, hTuniq⟩ := hr.targets hb
  obtain ⟨posting, hpost, hprep⟩ := (hr.follow _ _ hobj).postings index hidx
  obtain ⟨state, hstate, hsrep⟩ := hr.posted d hd
  have hold := hr.holds d hd
  have hasc := hr.ascending _ _ ht
  have hS : d.tableId = table.id →
      RowsAscending (db.rowsOf d.tableId) ∧ ValidChanges (db.rowsOf d.tableId) changes := by
    intro h
    rw [h, hr.tables.rowsOf_eq ht]
    exact ⟨hasc, hv⟩
  have htarget : d.targetTableId = table.id → target = table ∧ target.name = name := by
    intro h
    have hn := hr.tables.distinct _ _ _ _ hobj ht (htid.trans h)
    exact ⟨Option.some.inj (hobj.symm.trans (hn ▸ ht)), hn⟩
  have hTc : d.targetTableId = table.id →
      RowsAscending target.rows ∧ ValidChanges target.rows changes := by
    intro h
    rw [(htarget h).1]
    exact ⟨hasc, hv⟩
  have hTk : db.TargetsKeyed d (d.targetTableId = table.id) changes := by
    intro h change hc row hrow
    have h := of_decide_eq_true h
    obtain ⟨heq, hname⟩ := htarget h
    obtain hbefore | hafter := hrow
    · obtain ⟨-, k, -, hk⟩ := hTkeys row (heq ▸ (hv.mem_of_before hc hbefore).1)
      exact ⟨k, hk⟩
    · obtain ⟨k, hk⟩ := hk index (hname ▸ hidx) change hc
      rw [hafter, ← heq] at hk
      obtain ⟨b, rfl⟩ := hb.rowKey_some hk
      exact hb.targetKey_of_rowKey hk
  -- integrity afterwards is what the two checks decide
  have hholds : ReferenceHolds (db.setRows name table (applyChanges table.rows changes)) d ↔
      db.SourcesKeyed d (d.tableId = table.id) changes ∧
        Integrity.RemovalsCovered (entriesOf (d.sourceKey db.catalog) (db.rowsOf d.tableId))
          (entriesOf (d.targetKey db.catalog) target.rows)
          (added (d.sourceKey db.catalog) (d.tableId = table.id) changes)
          (added (d.targetKey db.catalog) (d.targetTableId = table.id) changes)
          (touched (d.tableId = table.id) changes) (touched (d.targetTableId = table.id) changes) ∧
        Integrity.SourcesCovered (entriesOf (d.targetKey db.catalog) target.rows)
          (added (d.sourceKey db.catalog) (d.tableId = table.id) changes)
          (added (d.targetKey db.catalog) (d.targetTableId = table.id) changes)
          (touched (d.targetTableId = table.id) changes) := by
    have hkeyed := keyed_after (d.sourceKey db.catalog) (fun h =>
        (hS (of_decide_eq_true h)).2) hold.keyed
    have hsrc := entriesOf_revise (d.sourceKey db.catalog) fun h => hS (of_decide_eq_true h)
    have htgt := entriesOf_revise (d.targetKey db.catalog) fun h => hTc (of_decide_eq_true h)
    have hiff := Integrity.holds_revise_iff (hT ▸ hold.holds) hTuniq
      (added (d.sourceKey db.catalog) (d.tableId = table.id) changes)
      (added (d.targetKey db.catalog) (d.targetTableId = table.id) changes)
      (touched (d.tableId = table.id) changes) (touched (d.targetTableId = table.id) changes)
    rw [← hiff, ← hsrc, ← htgt, ← hT, ← hr.rowsOf_after ht, ← hr.rowsOf_after ht]
    constructor
    · rintro ⟨hk', hh'⟩
      rw [hr.rowsOf_after ht] at hk'
      exact ⟨hkeyed.mp hk', hh'⟩
    · rintro ⟨hk', hh'⟩
      refine ⟨?_, hh'⟩
      rw [hr.rowsOf_after ht]
      exact hkeyed.mpr hk'
  have hempty : GENERAL_WORKING_MAX_BYTES ≥ ReferenceBatch.empty.bytes := Nat.zero_le _
  have hvalidate : db.validateReference db.rowSource table.id changes d = (do
      let batch ← db.gather d (d.tableId = table.id) (d.targetTableId = table.id) .empty changes
      checkRemoved d db.rowSource batch
        (if d.tableId = table.id then changes.map RowChange.rowId else [])
        batch.removedTargets.toList
      checkSources db.rowSource batch target.name index.shapeKey
        (d.targetTableId = table.id) (changes.map RowChange.rowId) batch.sourceKeys.toList) := by
    unfold validateReference
    rw [if_neg (by simpa [or_iff_not_imp_left] using haffected), hb.resolves]
    rfl
  have hgather (hs : db.SourcesKeyed d (d.tableId = table.id) changes) :=
    gather_spec hb batchOf_empty hempty hTk hs
  simp only [Set.empty_union] at hgather
  rw [hholds, hvalidate]
  constructor
  · intro h
    obtain ⟨batch, hbatch, ⟨⟩, hrem, hsrc⟩ := of_bind₂ h
    have hs := sourcesKeyed_of_gather hbatch
    obtain ⟨batch', hbatch', hwhole, -, hlim⟩ | ⟨⟨error, herr⟩, -⟩ := hgather hs
    · obtain rfl : batch = batch' := by simpa [hbatch] using hbatch'
      refine ⟨⟨hs, ?_, ?_⟩, by simpa [ReferenceBatch.empty] using hlim⟩
      · exact (checkRemoved_iff hwhole hb (fun h => hTc (of_decide_eq_true h)) hstate hsrep).mp
          (by simpa using hrem)
      · exact (checkSources_iff hwhole hb hTkeys hpost hprep).mp hsrc
    · rw [hbatch] at herr
      cases herr
  · rintro ⟨⟨hs, hrem, hsrc⟩, hlim⟩
    obtain ⟨batch, hbatch, hwhole, -, -⟩ | ⟨-, hover⟩ := hgather hs
    · refine bind_eq_ok.mpr ⟨batch, hbatch, bind_eq_ok.mpr ⟨⟨⟩, ?_, ?_⟩⟩
      · simpa using (checkRemoved_iff hwhole hb (fun h => hTc (of_decide_eq_true h)) hstate
          hsrep).mpr hrem
      · exact (checkSources_iff hwhole hb hTkeys hpost hprep).mpr hsrc
    · simp only [ReferenceBatch.empty, Nat.zero_add] at hover
      exact absurd hlim (Nat.not_le.mpr hover)

end Exact
end UnionId
