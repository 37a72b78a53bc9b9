import UnionId.Codec.Sound
import UnionId.Db.DurableLoad
import UnionId.Db.ReferenceSound

/-!
# What loading admits

The loader reads rows that nothing vouches for, so a loaded database has an invariant
only where the loader or one of its helpers checks it. Types of rows come from the
decoder, identities from the repair of row identities, unique keys and references from
the rebuilt postings. Primary keys are the exception: the index of a primary key is an
ordinary one, and no step looks for duplicates in it.
-/
namespace UnionId

open Lib Std Catalog List Database

/-! ## The next identity is read by allocation only -/

namespace Catalog

variable {c c' : Catalog} (h : c.types = c'.types)

include h

theorem definition_congr : c.definition = c'.definition := by
  funext id
  unfold definition
  rw [h]

theorem underlyingWithin_congr (n : ℕ) : c.underlyingWithin n = c'.underlyingWithin n := by
  induction n with
  | zero => rfl
  | succ n ih =>
    funext ty
    cases ty with
    | ref id => simp only [underlyingWithin, ih, definition_congr h]
    | _ => rfl

theorem recordColumns_congr (path : String) : c.recordColumns path = c'.recordColumns path := by
  funext ty
  simp only [recordColumns, underlying, underlyingWithin_congr h]

theorem followFields_congr (path : String) (ty : ScalarType) (parts : List String) :
    c.followFields path ty parts = c'.followFields path ty parts := by
  induction parts generalizing ty with
  | nil => rfl
  | cons part parts ih => simp only [followFields, recordColumns_congr h, ih]

theorem fieldType_congr (fields : List Column) (path : String) :
    c.fieldType fields path = c'.fieldType fields path := by
  simp only [fieldType, followFields_congr h]

theorem fieldPathIds_congr (fields : List Column) (path : String) :
    c.fieldPathIds fields path = c'.fieldPathIds fields path := by
  unfold fieldPathIds
  generalize splitDots path = parts
  induction parts generalizing fields with
  | nil => rfl
  | cons part parts ih => simp only [pathIds, recordColumns_congr h, ih]

theorem hasType_congr (n : ℕ) : c.HasType n = c'.HasType n := by
  induction n with
  | zero => rfl
  | succ n ih =>
    funext ty v
    cases ty <;> simp only [HasType, ih, definition_congr h]

end Catalog

section
variable {c c' : Catalog} (h : c.types = c'.types)

include h

theorem encodeValue_congr (version n : ℕ) :
    OrderedKey.encodeValue c version n = OrderedKey.encodeValue c' version n := by
  induction n with
  | zero => rfl
  | succ n ih =>
    funext ty v
    cases ty <;> simp only [OrderedKey.encodeValue, ih, definition_congr h]

theorem encodeComponents_congr (version : ℕ) (components : List OrderedKey.Component) :
    OrderedKey.encodeComponents c version components =
      OrderedKey.encodeComponents c' version components := by
  induction components with
  | nil => rfl
  | cons component components ih =>
    simp only [OrderedKey.encodeComponents, OrderedKey.encodeComponent, encodeValue_congr h, ih]

theorem encodeTuple_congr (components : List OrderedKey.Component) :
    OrderedKey.encodeTuple c components = OrderedKey.encodeTuple c' components := by
  simp only [OrderedKey.encodeTuple, OrderedKey.encodeTupleVersion, encodeComponents_congr h]

theorem rowKey_congr (schema : List Column) (name : String) (definition : IndexDefinition) :
    rowKey c schema name definition = rowKey c' schema name definition := by
  funext row
  simp only [rowKey, includedKey, tupleKey, fieldType_congr h, encodeTuple_congr h]

theorem postRows_congr (schema : List Column) (name : String) (definition : IndexDefinition)
    (posting : IndexPosting) (rows : List Row) : postRows c schema name definition posting rows =
      postRows c' schema name definition posting rows := by
  have hkey : ∀ fields, includedKey c schema name definition fields =
      includedKey c' schema name definition fields :=
    fun fields => congrFun (rowKey_congr h schema name definition) ⟨0, fields⟩
  induction rows generalizing posting with
  | nil => rfl
  | cons row rows ih => simp only [postRows, hkey, ih]

end

variable {db db' : Database} {s : CatalogEntries} {id : UInt64} {catalog : Catalog}
  {table t t' : Table} {fields : Fields} {objects : ExtTreeMap String Table} {name shape : String}
  {rows : List Row} {d : ReferenceDefinition}

/-- A posting depends on the types and the rows only. -/
theorem buildIndex_congr (htypes : db.catalog.types = db'.catalog.types)
    (hobjects : db.objects = db'.objects) (name : String) (definition : IndexDefinition) :
    db.buildIndex name definition = db'.buildIndex name definition := by
  have htable : db.table name = db'.table name := by
    unfold table
    rw [hobjects]
  simp only [buildIndex, htable, postRows_congr htypes]

/-! ## Catalog entries -/

/-- An entry is well formed by itself: its types are bound. -/
def DurableCatalogEntry.WellFormed : DurableCatalogEntry → Prop
  | .type definition => definition.ty.Bound
  | .table t => (ScalarType.record t.schema).Bound
  | _ => True

variable {header : DurableMeta} {entries : List DurableCatalogEntry} {posting : IndexPosting}
  {key target : String}

theorem durableCatalog_sound (header : DurableMeta)
    (hentries : ∀ entry ∈ entries, entry.WellFormed) :
    (durableCatalog header entries).WellFormed ∧
      (durableCatalog header entries).Everywhere ScalarType.UniqueIds := by
  have hbound : ∀ id d, (durableCatalog header entries).definition id = .ok d → d.ty.Bound :=
    fun _ d hd => hentries _ (mem_of_declaredTypes (definition_mem hd).2.choose_spec)
  exact ⟨fun _ d hd => (hbound _ d hd).wellFormed, fun _ d hd => (hbound _ d hd).uniqueIds⟩

/-! ## Rows -/

/-- The fields of a row are those of a value of the row type. -/
def RowTyped (catalog : Catalog) (table : Table) (fields : Fields) : Prop :=
  ∃ v, catalog.HasType MAX_DEPTH table.rowScalarType v ∧ v.unwrapped = .record fields

theorem rowScalarType_bound (h : (ScalarType.record table.schema).Bound) :
    table.rowScalarType.Bound := by
  unfold Table.rowScalarType
  split
  · exact bound_leaf (.ref _) trivial rfl
  · exact h

theorem rowTyped_congr {c c' : Catalog} (h : c.types = c'.types) :
    RowTyped c table fields ↔ RowTyped c' table fields := by
  simp only [RowTyped, hasType_congr h]

theorem decodeFields_typed (hc : catalog.WellFormed)
    (hids : catalog.Everywhere ScalarType.UniqueIds)
    (htable : (ScalarType.record table.schema).Bound) {bytes : List UInt8}
    (h : decodeFields catalog table bytes = .ok fields) : RowTyped catalog table fields := by
  obtain ⟨v, hv, h⟩ := of_bind h
  split at h
  · next hrecord =>
    cases h
    exact ⟨v, Codec.decodeValue_hasType hc hids (rowScalarType_bound htable) hv, hrecord⟩
  · cases h

theorem RowTyped.restored (h : t.Restored t') :
    RowTyped catalog t' fields ↔ RowTyped catalog t fields := by
  simp only [RowTyped, Table.rowScalarType, h.rowType, h.schema]

/-! ## Repairs -/

theorem repairCatalogIds_eq
    (h : ∀ (name : String) (t : Table), db.objects[name]? = some t → t.id ≠ 0) :
    db.repairCatalogIds = .ok db := by
  have hlist : ∀ entry ∈ db.objects.toList, entry.2.id ≠ 0 := fun entry hmem =>
    h entry.1 entry.2 (ExtTreeMap.mem_toList_iff_getElem?_eq_some.mp hmem)
  unfold repairCatalogIds
  generalize db.objects.toList = entries at hlist
  induction entries with
  | nil => rfl
  | cons entry entries ih =>
    obtain ⟨hentry, hrest⟩ := forall_mem_cons.mp hlist
    obtain ⟨name, table⟩ := entry
    simp only [foldlM_cons, if_neg hentry, pure_eq_ok, ok_bind]
    exact ih hrest

theorem rowIdsValid_ascending {next : RowId} {previous : Option RowId}
    (h : Database.rowIdsValid next previous rows = true) :
    RowsAscending rows ∧ (∀ row ∈ rows, row.id < next) ∧
      ∀ id ∈ previous, ∀ row ∈ rows, id < row.id := by
  induction rows generalizing previous with
  | nil => simp [RowsAscending]
  | cons row rows ih =>
    simp only [rowIdsValid, Bool.and_eq_true, Bool.not_eq_true', decide_eq_true_eq] at h
    obtain ⟨⟨hprevious, hnext⟩, hrest⟩ := h
    obtain ⟨hasc, hlt, habove⟩ := ih hrest
    have habove := habove row.id rfl
    refine ⟨pairwise_cons.mpr ⟨habove, hasc⟩, forall_mem_cons.mpr ⟨hnext, hlt⟩, ?_⟩
    rintro id hid
    have hid' : id < row.id := by
      cases hid
      simpa using hprevious
    exact forall_mem_cons.mpr ⟨hid', fun r hr => hid'.trans (habove r hr)⟩

theorem repairTable_eq (hnumbered : t.nextRowId = 0 → t.rows = [])
    (h : Database.repairTable t = .ok t') :
    t' = t ∧ rowIdsValid t.nextRowId none t.rows = true := by
  obtain ⟨t₁, ht₁, h⟩ := of_bind h
  rw [renumberRows, if_neg fun hzero => hzero.2 (hnumbered hzero.1)] at ht₁
  cases ht₁
  obtain ⟨hvalid, h⟩ := of_required h
  exact ⟨(Except.ok.inj h).symm, hvalid⟩

theorem foldlM_repairTable {entries : List (String × Table)}
    (hentries : ∀ entry ∈ entries, db.objects[entry.1]? = some entry.2 ∧
      (entry.2.nextRowId = 0 → entry.2.rows = []))
    (h : entries.foldlM (fun db (name, table) => do
      let table ← repairTable table
      pure { db with objects := db.objects.insert name table }) db = .ok db') :
    db' = db ∧ ∀ entry ∈ entries, rowIdsValid entry.2.nextRowId none entry.2.rows = true := by
  induction entries with
  | nil =>
    cases h
    simp
  | cons entry entries ih =>
    obtain ⟨⟨hentry, hnumbered⟩, hrest⟩ := forall_mem_cons.mp hentries
    rw [foldlM_cons] at h
    obtain ⟨db₁, hstep, h⟩ := of_bind h
    obtain ⟨table, htable, rfl⟩ := of_bind_pure hstep
    obtain ⟨rfl, hvalid⟩ := repairTable_eq hnumbered htable
    rw [insert_eq_self hentry] at h
    obtain ⟨rfl, hall⟩ := ih hrest h
    exact ⟨rfl, forall_mem_cons.mpr ⟨hvalid, hall⟩⟩

/-- Loaded rows have their identities, so the repair only checks them. -/
theorem repairRowIds_eq (hnumbered : ∀ (name : String) (t : Table), db.objects[name]? = some t →
      t.nextRowId = 0 → t.rows = []) (h : db.repairRowIds = .ok db') :
    db' = db ∧ ∀ (name : String) (t : Table), db.objects[name]? = some t →
      rowIdsValid t.nextRowId none t.rows = true := by
  obtain ⟨rfl, hall⟩ := foldlM_repairTable (fun entry hentry => by
    have hget := ExtTreeMap.mem_toList_iff_getElem?_eq_some.mp hentry
    exact ⟨hget, hnumbered _ _ hget⟩) h
  exact ⟨rfl, fun name t ht => hall (name, t) (ExtTreeMap.mem_toList_iff_getElem?_eq_some.mpr ht)⟩

/-! ## Rebuilding indexes -/

theorem allocate_eq_ok {catalog' : Catalog} (h : catalog.allocate = .ok (id, catalog')) :
    catalog'.types = catalog.types ∧ id = catalog.nextId ∧ id < catalog'.nextId := by
  obtain ⟨⟨id', next⟩, hid, h⟩ := of_bind h
  cases h
  unfold allocateId at hid
  obtain ⟨hfits, hid⟩ := of_required hid
  cases hid
  refine ⟨rfl, rfl, ?_⟩
  rw [UInt64.lt_iff_toNat_lt, UInt64.toNat_add, UInt64.toNat_one, Nat.mod_eq_of_lt hfits]
  exact Nat.lt_succ_self _

/-- A definition that is made for an index without one. -/
structure Allocated [External] (db db' : Database) (name shape : String) (d : IndexDefinition) :
    Prop where
  fresh : db.catalog.nextId ≤ d.id
  below : d.id < db'.catalog.nextId
  table : ∃ t, db.objects[name]? = some t ∧ d.tableId = t.id
  shapeKey : d.shapeKey = shape
  ordinary : d.isUnique = false
  primary : d.isPrimaryIndex (some shape) = true

/-- What finding or making a definition leaves as it was. -/
structure Defines [External] (db db' : Database) (name shape : String) (d : IndexDefinition) :
    Prop where
  objects : db'.objects = db.objects
  types : db'.catalog.types = db.catalog.types
  references : db'.referenceDefinitions = db.referenceDefinitions
  indexes : db'.indexes = db.indexes
  nextId : db.catalog.nextId ≤ db'.catalog.nextId
  defined : (db'.definitions name)[shape]? = some d
  kept : ∀ (n s : String) (d' : IndexDefinition), (db.definitions n)[s]? = some d' →
    (db'.definitions n)[s]? = some d'
  only : ∀ (n s : String) (d' : IndexDefinition), (db'.definitions n)[s]? = some d' →
    (db.definitions n)[s]? = some d' ∨ n = name ∧ s = shape ∧ Allocated db db' n s d'

theorem shapeKey_single [External] (id tableId : UInt64) (shape : String)
    (fieldPath : List UInt64) :
    (IndexDefinition.mk id tableId "" [] [⟨shape, fieldPath, false⟩] .ordinary none).shapeKey =
      shape := by
  simp [IndexDefinition.shapeKey, IndexDefinition.effectiveComponents,
    IndexDefinition.joinComponents]

theorem ensureDefinition_defines [External] {d : IndexDefinition}
    (h : db.ensureDefinition name shape = .ok (db', d)) : Defines db db' name shape d := by
  unfold ensureDefinition at h
  split at h
  · next d' hd =>
    cases h
    exact ⟨rfl, rfl, rfl, rfl, UInt64.le_refl _, hd, fun _ _ _ h => h, fun _ _ _ h => .inl h⟩
  · next hnone =>
    simp only [bind_eq_ok, pure_eq_ok, Except.ok.injEq, Prod.mk.injEq] at h
    obtain ⟨table, htable, fieldPath, -, ⟨id, catalog⟩, hallocate, rfl, rfl⟩ := h
    obtain ⟨htypes, rfl, hnext⟩ := allocate_eq_ok hallocate
    have hget := getElem?_insert_insert db.indexDefinitions name shape
    refine ⟨rfl, htypes, rfl, rfl, UInt64.le_of_lt hnext, ?_, fun n s d' hd' => ?_,
      fun n s d' hd' => ?_⟩
    · exact (hget _ name shape).trans (if_pos ⟨rfl, rfl⟩)
    · refine (hget _ n s).trans ((if_neg ?_).trans hd')
      rintro ⟨rfl, rfl⟩
      simp [hnone] at hd'
    · have hd' := (hget _ n s).symm.trans hd'
      split at hd'
      · next heq =>
        cases hd'
        obtain ⟨rfl, rfl⟩ := heq
        exact .inr ⟨rfl, rfl, UInt64.le_refl _, hnext, ⟨table, table_eq_ok.mp htable, rfl⟩,
          shapeKey_single .., rfl, by simp [IndexDefinition.isPrimaryIndex,
            IndexDefinition.effectiveComponents]⟩
      · exact .inl hd'

/-- Definitions have their shapes and tables, and identities of their own. -/
structure Defined [External] (db : Database) : Prop where
  shapes : ∀ (n s : String) (d : IndexDefinition), (db.definitions n)[s]? = some d → d.shapeKey = s
  tables : ∀ (n s : String) (d : IndexDefinition), (db.definitions n)[s]? = some d →
    ∃ t, db.objects[n]? = some t ∧ d.tableId = t.id
  below : ∀ (n s : String) (d : IndexDefinition), (db.definitions n)[s]? = some d →
    d.id < db.catalog.nextId
  distinct : ∀ (n s n' s' : String) (d d' : IndexDefinition), (db.definitions n)[s]? = some d →
    (db.definitions n')[s']? = some d' → d.id = d'.id → n = n' ∧ s = s'

theorem Defines.defines [External] {d : IndexDefinition} (h : Defines db db' name shape d)
    (hdb : Defined db) : Defined db' := by
  have hbelow : ∀ (n s : String) (d : IndexDefinition), (db.definitions n)[s]? = some d →
      d.id < db'.catalog.nextId := fun n s d hd =>
    UInt64.lt_of_lt_of_le (hdb.below n s d hd) h.nextId
  have hnew : ∀ (n s n' s' : String) (d d' : IndexDefinition), (db.definitions n)[s]? = some d →
      Allocated db db' n' s' d' → d.id ≠ d'.id := fun n s n' s' d d' hd hd' heq =>
    absurd (heq ▸ hdb.below n s d hd) (UInt64.not_lt.mpr hd'.fresh)
  refine ⟨fun n s d hd => ?_, fun n s d hd => ?_, fun n s d hd => ?_,
    fun n s n' s' d d' hd hd' heq => ?_⟩
  · exact (h.only n s d hd).elim (hdb.shapes n s d) fun hd => hd.2.2.shapeKey
  · rw [h.objects]
    exact (h.only n s d hd).elim (hdb.tables n s d) fun hd => hd.2.2.table
  · exact (h.only n s d hd).elim (hbelow n s d) fun hd => hd.2.2.below
  · obtain hd | ⟨rfl, rfl, hd⟩ := h.only n s d hd <;>
      obtain hd' | ⟨rfl, rfl, hd'⟩ := h.only n' s' d' hd'
    · exact hdb.distinct n s n' s' d d' hd hd' heq
    · exact absurd heq (hnew _ _ _ _ _ _ hd hd')
    · exact absurd heq.symm (hnew _ _ _ _ _ _ hd' hd)
    · exact ⟨rfl, rfl⟩

/-- The state after some indexes have been rebuilt from a base. -/
structure Rebuilt [External] (base db : Database) (done : List (String × String)) : Prop where
  objects : db.objects = base.objects
  types : db.catalog.types = base.catalog.types
  references : db.referenceDefinitions = base.referenceDefinitions
  nextId : base.catalog.nextId ≤ db.catalog.nextId
  definitions : Defined db
  only : ∀ (n s : String) (d : IndexDefinition), (db.definitions n)[s]? = some d →
    (base.definitions n)[s]? = some d ∨ (n, s) ∈ done ∧ Allocated base db n s d
  posted : ∀ (n s : String) (posting : IndexPosting), (db.tableIndexes n)[s]? = some posting →
    ∃ d, (db.definitions n)[s]? = some d ∧ db.buildIndex n d = .ok posting ∧
      (d.isUnique = true → Database.hasDuplicate posting = false)
  finished : ∀ key ∈ done, (db.tableIndexes key.1)[key.2]?.isSome = true

theorem getElem?_tableIndexes_insert (n s : String) :
    (({ db with indexes := db.indexes.insert name ((db.tableIndexes name).insert shape posting) } :
      Database).tableIndexes n)[s]? =
        if n = name ∧ s = shape then some posting else (db.tableIndexes n)[s]? :=
  getElem?_insert_insert db.indexes name shape posting n s

theorem rebuildIndex_rebuilt [External] {base : Database} {done : List (String × String)}
    {key : String × String} (hdb : Rebuilt base db done) (h : db.rebuildIndex key = .ok db') :
    Rebuilt base db' (done ++ [key]) := by
  obtain ⟨name, shape⟩ := key
  obtain ⟨⟨db₁, d⟩, hdefine, h⟩ := of_bind h
  have hd := ensureDefinition_defines hdefine
  obtain ⟨posting, hposting, h⟩ := of_bind h
  dsimp only at hposting h
  split at h
  · cases h
  next hunique =>
  cases h
  have hdefined := hd.defines hdb.definitions
  have htables : ∀ n, db₁.tableIndexes n = db.tableIndexes n := fun n => by
    simp only [tableIndexes, hd.indexes]
  refine ⟨hd.objects.trans hdb.objects, hd.types.trans hdb.types,
    hd.references.trans hdb.references, UInt64.le_trans hdb.nextId hd.nextId,
    ⟨hdefined.1, hdefined.2, hdefined.3, hdefined.4⟩, fun n s d' hd' => ?_, fun n s p hp => ?_,
    fun k hk => ?_⟩
  · obtain hold | ⟨rfl, rfl, hnew⟩ := hd.only n s d' hd'
    · refine (hdb.only n s d' hold).imp_right fun ⟨hdone, hmade⟩ =>
        ⟨mem_append_left _ hdone, hmade.fresh, UInt64.lt_of_lt_of_le hmade.below hd.nextId,
          hmade.table, hmade.shapeKey, hmade.ordinary, hmade.primary⟩
    · exact .inr ⟨mem_append_right _ mem_cons_self, UInt64.le_trans hdb.nextId hnew.fresh,
        hnew.below, hdb.objects ▸ hnew.table, hnew.shapeKey, hnew.ordinary, hnew.primary⟩
  · rw [getElem?_tableIndexes_insert] at hp
    split at hp
    · next heq =>
      obtain ⟨rfl, rfl⟩ := heq
      cases hp
      refine ⟨d, hd.defined, hposting, fun hu => ?_⟩
      simpa [hu] using hunique
    · rw [htables] at hp
      obtain ⟨d', hd', hbuild, hdup⟩ := hdb.posted n s p hp
      exact ⟨d', hd.kept n s d' hd', (buildIndex_congr hd.types hd.objects n d').trans hbuild, hdup⟩
  · rw [getElem?_tableIndexes_insert]
    split
    · rfl
    · next hne =>
      rw [htables]
      obtain hk | hk := mem_append.mp hk
      · exact hdb.finished k hk
      · obtain rfl := mem_singleton.mp hk
        exact absurd ⟨rfl, rfl⟩ hne

theorem rebuildIndexes_eq_ok [External] (hdb : Defined db) (hindexes : db.indexes = ∅)
    (hids : ∀ (name : String) (t : Table), db.objects[name]? = some t → t.id ≠ 0)
    (hnumbered : ∀ (name : String) (t : Table), db.objects[name]? = some t →
      t.nextRowId = 0 → t.rows = []) (h : db.rebuildIndexes = .ok db') :
    Rebuilt db db' db.indexKeys ∧ ∀ (name : String) (t : Table), db.objects[name]? = some t →
      rowIdsValid t.nextRowId none t.rows = true := by
  obtain ⟨db₁, hcatalog, h⟩ := of_bind h
  cases (repairCatalogIds_eq hids).symm.trans hcatalog
  obtain ⟨base, hbase, h⟩ := of_bind h
  obtain ⟨rfl, hvalid⟩ := repairRowIds_eq hnumbered hbase
  have hstart : ({ base with indexes := ∅ } : Database) = base := by
    rw [← hindexes]
  rw [hstart] at h
  have hnone : Rebuilt base base [] := ⟨rfl, rfl, rfl, UInt64.le_refl _, hdb, fun _ _ _ h => .inl h,
    by simp [tableIndexes, hindexes], by simp⟩
  exact ⟨foldlM_seen (P := fun done db => Rebuilt base db done)
    (fun _ _ _ _ hacc hstep => rebuildIndex_rebuilt hacc hstep) h hnone, hvalid⟩

theorem mem_indexKeys_of_definition {d : IndexDefinition}
    (h : (db.definitions name)[shape]? = some d) : (name, shape) ∈ db.indexKeys := by
  have hname : name ∈ db.indexDefinitions := by
    rw [ExtTreeMap.mem_iff_isSome_getElem?]
    unfold definitions at h
    cases hget : db.indexDefinitions[name]? with
    | none => simp [hget] at h
    | some m => rfl
  have hshape : shape ∈ db.definitions name := by
    rw [ExtTreeMap.mem_iff_isSome_getElem?, h]
    rfl
  simp only [indexKeys, mem_flatMap, mem_map, Prod.mk.injEq]
  refine ⟨name, ?_, shape, ?_, rfl, rfl⟩
  · simp [ExtTreeSet.mem_toList, ExtTreeSet.mem_insertMany_list, ExtTreeMap.mem_keys, hname]
  · unfold indexShapes
    split <;> simp [ExtTreeSet.mem_toList, ExtTreeSet.mem_insertMany_list, ExtTreeMap.mem_keys,
      ExtTreeSet.mem_insert, hshape]

theorem mem_indexKeys_of_primaryKey
    (h : db.objects[name]? = some t) (hkey : t.primaryKey = some key) :
    (name, key) ∈ db.indexKeys := by
  have hname : name ∈ db.objects := by
    rw [ExtTreeMap.mem_iff_isSome_getElem?, h]
    rfl
  simp only [indexKeys, mem_flatMap, mem_map, Prod.mk.injEq]
  refine ⟨name, ?_, key, ?_, rfl, rfl⟩
  · simp [ExtTreeSet.mem_toList, ExtTreeSet.mem_insertMany_list, ExtTreeMap.mem_keys, hname]
  · simp [indexShapes, h, hkey, ExtTreeSet.mem_toList, ExtTreeSet.mem_insert]

/-- A posting without duplicates has one row per key. -/
theorem keyUnique_of_hasDuplicate {key : Row → Result (Option (List UInt8))}
    (hasc : RowsAscending rows)
    (hrep : posting.Represents (entriesOf key rows)) (h : Database.hasDuplicate posting = false) :
    KeyUnique key rows := by
  intro r hr s hs k hkr hks
  have hlen : (posting.idsAt k).length ≤ 1 := by
    unfold Posting.idsAt
    cases hget : posting[k]? with
    | none => simp
    | some ids =>
      have hall := any_eq_false.mp h ids (mem_valuesOf.mpr ⟨k, hget⟩)
      simpa using hall
  have hr' : r.id ∈ posting.idsAt k := hrep.mem_idsAt.mpr ⟨r, hr, hkr, rfl⟩
  have hs' : s.id ∈ posting.idsAt k := hrep.mem_idsAt.mpr ⟨s, hs, hks, rfl⟩
  have hid : r.id = s.id := by
    match hids : posting.idsAt k, hlen with
    | [], _ => simp [hids] at hr'
    | [id], _ =>
      rw [hids, mem_singleton] at hr' hs'
      exact hr'.trans hs'.symm
    | _ :: _ :: _, hlen => simp at hlen
  exact hasc.eq_of_id_eq hr hs hid

/-! ## References -/

theorem postSources_eq_ok [External] {sources result : Posting (List UInt8) RowId}
    (h : db.postSources d target shape sources rows = .ok result) :
    ∀ row ∈ rows, ∃ key, d.key db.catalog row.fields true = .ok key ∧ (key.isSome = true →
      ∃ boundary hits, db.referenceTargetBoundary d row.fields = .ok (some boundary) ∧
        db.rowSource.scanIndex target shape (.point boundary) false none = .ok hits ∧
          hits ≠ []) := by
  induction rows generalizing sources with
  | nil => simp
  | cons row rows ih =>
    obtain ⟨key, hkey, h⟩ := of_bind h
    cases key with
    | none => exact forall_mem_cons.mpr ⟨⟨none, hkey, by simp⟩, ih h⟩
    | some key =>
      obtain ⟨boundary, hboundary, h⟩ := of_bind h
      cases boundary with
      | none => cases h
      | some boundary =>
        obtain ⟨hits, hhits, h⟩ := of_bind h
        obtain ⟨hne, h⟩ := of_refused h
        exact forall_mem_cons.mpr ⟨⟨some key, hkey, fun _ =>
          ⟨boundary, hits, hboundary, hhits, by simpa using hne⟩⟩, ih h⟩

/-- A reference is satisfied: every source row can be keyed, and the key of a source row
is that of a row in the target index. -/
def ReferenceSatisfied (db : Database) (d : ReferenceDefinition) : Prop :=
  ∃ source target index, db.tableById d.tableId = some source ∧
    db.referenceTargetIndex d = .ok (target, index) ∧
    ∀ row ∈ source.rows, ∃ key, d.key db.catalog row.fields true = .ok key ∧ (key.isSome = true →
      ∃ boundary, db.referenceTargetBoundary d row.fields = .ok (some boundary) ∧
        ∃ t ∈ target.rows,
          rowKey db.catalog target.schema target.name index t = .ok (some boundary))

/-- The postings of a database are those of its rows. -/
structure Indexed [External] (db : Database) : Prop where
  named : ∀ (name : String) (t : Table), db.objects[name]? = some t → t.name = name
  ascending : ∀ (name : String) (t : Table), db.objects[name]? = some t → RowsAscending t.rows
  shapes : ∀ (n s : String) (d : IndexDefinition), (db.definitions n)[s]? = some d → d.shapeKey = s
  posted : ∀ (n s : String) (posting : IndexPosting), (db.tableIndexes n)[s]? = some posting →
    ∃ d, (db.definitions n)[s]? = some d ∧ db.buildIndex n d = .ok posting

theorem referenceTargetIndex_eq_ok {target : Table}
    {index : IndexDefinition} (h : db.referenceTargetIndex d = .ok (target, index)) :
    db.tableById d.targetTableId = some target ∧ index ∈ valuesOf (db.definitions target.name) := by
  obtain ⟨t, ht, h⟩ := of_bind h
  unfold targetTable at ht
  split at ht
  · next t' hfind =>
    cases ht
    split at h
    · next i hi =>
      cases h
      exact ⟨hfind, mem_of_find?_eq_some hi⟩
    · cases h
  · cases ht

theorem tableById_mem (h : db.tableById id = some t) :
    ∃ name : String, db.objects[name]? = some t :=
  mem_valuesOf.mp (mem_of_find?_eq_some h)

theorem buildReferenceState_satisfied [External] {db : Database} (hdb : Indexed db)
    {d : ReferenceDefinition} {source : String} {state : ReferenceState}
    (htables : db.referenceTables d = .ok (source, target))
    (h : db.buildReferenceState d source target = .ok state) : ReferenceSatisfied db d := by
  obtain ⟨⟨t, index⟩, hindex, table, htable, h⟩ := of_bind₂ h
  obtain ⟨sources, hsources, -⟩ := of_bind h
  obtain ⟨htarget, hmem⟩ := referenceTargetIndex_eq_ok hindex
  unfold referenceTables at htables
  split at htables
  · next s t' hs ht' =>
    cases ht'.symm.trans htarget
    cases htables
    obtain ⟨sname, hsname⟩ := tableById_mem hs
    obtain ⟨tname, htname⟩ := tableById_mem htarget
    have hsn := hdb.named sname s hsname
    have htn := hdb.named tname t htname
    subst hsn htn
    cases (table_eq_ok.mpr hsname).symm.trans htable
    refine ⟨table, t, index, hs, hindex, fun row hrow => ?_⟩
    obtain ⟨key, hkey, hhit⟩ := postSources_eq_ok hsources row hrow
    refine ⟨key, hkey, fun hsome => ?_⟩
    obtain ⟨boundary, hits, hboundary, hscan, hne⟩ := hhit hsome
    refine ⟨boundary, hboundary, ?_⟩
    obtain ⟨shape, hshape⟩ := mem_valuesOf.mp hmem
    have hkeyed := hdb.shapes t.name shape index hshape
    subst hkeyed
    obtain ⟨posting, hposting, hscan'⟩ := of_bind hscan
    unfold planned at hposting
    split at hposting
    · next p hp =>
      cases hposting
      obtain ⟨index', hindex', hbuild⟩ := hdb.posted _ _ _ hp
      cases hshape.symm.trans hindex'
      obtain ⟨-, hrep⟩ := buildIndex_represents (table_eq_ok.mpr htname)
        (hdb.ascending _ t htname) hbuild
      obtain ⟨hit, hhit⟩ := exists_mem_of_ne_nil hits hne
      obtain ⟨id, ⟨r, hr, hrk, -⟩, -⟩ := (exists_hit_iff (P := fun _ => True) hp hrep).mp
        ⟨hits, hscan, hit, hhit, trivial⟩
      exact ⟨r, hr, hrk⟩
    · cases hposting
  · cases htables

theorem boundReferenceDefinitions_eq_ok {definitions : ExtTreeMap UInt64 ReferenceDefinition}
    (h : db.boundReferenceDefinitions = .ok definitions) (id : UInt64) (d : ReferenceDefinition)
    (hd : definitions[id]? = some d) : d.id = id ∧
      ∃ original ∈ valuesOf db.referenceDefinitions, db.rebindReference original = .ok d := by
  unfold boundReferenceDefinitions at h
  refine foldlM_induction (P := fun definitions : ExtTreeMap UInt64 ReferenceDefinition =>
    ∀ (id : UInt64) (d : ReferenceDefinition), definitions[id]? = some d → d.id = id ∧
      ∃ original ∈ valuesOf db.referenceDefinitions, db.rebindReference original = .ok d)
    (fun definitions original definitions' hmem hdefinitions hstep id d hd =>
      ?_) h (by simp) id d hd
  obtain ⟨bound, hbound, hstep⟩ := of_bind hstep
  obtain ⟨-, hstep⟩ := of_refused hstep
  cases hstep
  rw [ExtTreeMap.getElem?_insert] at hd
  split at hd
  · next heq =>
    cases hd
    exact ⟨LawfulEqOrd.eq_of_compare heq, original, hmem, hbound⟩
  · exact hdefinitions id d hd

theorem foldlM_buildReferenceState [External] {definitions : List ReferenceDefinition}
    {states states' : ExtTreeMap UInt64 ReferenceState}
    (h : definitions.foldlM (fun states definition => do
      let (source, target) ← db.referenceTables definition
      let state ← db.buildReferenceState definition source target
      pure (states.insert definition.id state)) states = .ok states') :
    ∀ d ∈ definitions, ∃ source target state, db.referenceTables d = .ok (source, target) ∧
      db.buildReferenceState d source target = .ok state := by
  induction definitions generalizing states with
  | nil => simp
  | cons d definitions ih =>
    rw [foldlM_cons] at h
    obtain ⟨states₁, hstep, h⟩ := of_bind h
    obtain ⟨⟨source, target⟩, htables, state, hstate, -⟩ := of_bind₂ hstep
    exact forall_mem_cons.mpr ⟨⟨source, target, state, htables, hstate⟩, ih h⟩

theorem loadReferences_eq_ok [DurableExternal] (h : loadReferences db = .ok db') :
    (∃ definitions states, db' =
      { db with referenceDefinitions := definitions, referenceStates := states }) ∧
      db.boundReferenceDefinitions = .ok db'.referenceDefinitions ∧
      ∀ d ∈ valuesOf db'.referenceDefinitions, ∃ source target state,
        db.referenceTables d = .ok (source, target) ∧
          db.buildReferenceState d source target = .ok state := by
  obtain ⟨rebuilt, hrebuilt, h⟩ := of_bind h
  obtain ⟨-, h⟩ := of_refused h
  cases h
  unfold asStorage at hrebuilt
  split at hrebuilt
  · next db₁ hrun =>
    cases hrebuilt
    obtain ⟨definitions, hdefinitions, states, hstates, hrun⟩ := of_bind₂ hrun
    cases hrun
    exact ⟨⟨definitions, states, rfl⟩, hdefinitions, foldlM_buildReferenceState hstates⟩
  · cases hrebuilt

/-! ## The steps of loading -/

/-- A loaded database: what was collected and read, the state that indexes were rebuilt
from, and the state that references were bound in. -/
structure Loading [DurableExternal] (header : DurableMeta) (entries : List DurableCatalogEntry)
    (rows : List DurableRow) (s : CatalogEntries) (base built db : Database) : Prop where
  claims : s.Claims entries
  collects : s.Collects entries
  below : s.maxId < header.nextCatalogId
  catalog : base.catalog = durableCatalog header entries
  definitions : base.indexDefinitions = s.indexDefinitions
  referenceDefinitions : base.referenceDefinitions = s.referenceDefinitions
  tables : ∀ name : String, Option.Rel (Table.Loads base.catalog (sortRows rows))
    s.objects[name]? base.objects[name]?
  valid : ∀ (name : String) (t : Table), base.objects[name]? = some t →
    rowIdsValid t.nextRowId none t.rows = true
  rebuilt : Rebuilt base built base.indexKeys
  bound : loadReferences built = .ok db

section Loading
variable {s : CatalogEntries}

theorem CatalogEntries.checkIndexTables_eq_ok (h : s.checkIndexTables = .ok ())
    {d : IndexDefinition} (hd : (s.indexDefinitions[name]?.getD ∅)[shape]? = some d) :
    ∃ t, s.objects[name]? = some t ∧ d.tableId = t.id := by
  cases hds : s.indexDefinitions[name]? with
  | none => simp [hds] at hd
  | some ds =>
    rw [hds, Option.getD_some] at hd
    have hall := forM_eq_ok_iff.mp h (name, ds) (ExtTreeMap.mem_toList_iff_getElem?_eq_some.mpr hds)
    dsimp only at hall
    split at hall
    · cases hall
    · next t ht =>
      obtain ⟨hid, -⟩ := of_refused (forM_eq_ok_iff.mp hall d (mem_valuesOf.mpr ⟨shape, hd⟩))
      exact ⟨t, ht, not_not.mp hid⟩

/-- Entries are known by their identities. -/
theorem CatalogEntries.Claims.eq_of_stableId_eq (hs : s.Claims entries)
    {a b : DurableCatalogEntry} (ha : a ∈ entries) (hb : b ∈ entries)
    (hid : a.stableId = b.stableId) : a = b :=
  inj_on_of_nodup_map hs.distinct ha hb hid

variable [DurableExternal] {rows : List DurableRow} {base built : Database}

theorem CatalogEntries.Collects.exists_entry (hs : s.Collects entries)
    (htables : ∀ name : String, Option.Rel (Table.Loads catalog (sortRows rows)) s.objects[name]?
      objects[name]?) (ht : objects[name]? = some t) :
    ∃ d, .table d ∈ entries ∧ d.name = name ∧ d.empty.Loads catalog (sortRows rows) t := by
  have hrel := htables name
  rw [ht] at hrel
  cases hget : s.objects[name]? with
  | none =>
    rw [hget] at hrel
    cases hrel
  | some t₀ =>
    rw [hget] at hrel
    cases hrel with
    | some hloads =>
      obtain ⟨d, hd, hname, rfl⟩ := (hs.objects name t₀).mp hget
      exact ⟨d, hd, hname, hloads⟩

theorem CatalogEntries.Collects.exists_table (hs : s.Collects entries)
    (htables : ∀ name : String, Option.Rel (Table.Loads catalog (sortRows rows)) s.objects[name]?
      objects[name]?) {d : DurableTable} (hd : .table d ∈ entries) :
    ∃ t, objects[d.name]? = some t ∧ d.empty.Loads catalog (sortRows rows) t := by
  have hrel := htables d.name
  rw [(hs.objects d.name d.empty).mpr ⟨d, hd, rfl, rfl⟩] at hrel
  cases hget : objects[d.name]? with
  | none =>
    rw [hget] at hrel
    cases hrel
  | some t =>
    rw [hget] at hrel
    cases hrel with
    | some hloads => exact ⟨t, rfl, hloads⟩

theorem fromDurable_eq_ok {history : List MigrationEntry} {loaded : LoadedDatabase}
    (h : fromDurable header entries rows history = .ok loaded) :
    ∃ s base built, Loading header entries rows s base built loaded.database := by
  obtain ⟨⟨catalog, s⟩, hcatalog, objects, hobjects, h⟩ := of_bind₂ h
  obtain ⟨-, -, -, -, h⟩ := of_bind₂ h
  obtain ⟨built, hindexes, db, hreferences, h⟩ := of_bind₂ h
  obtain ⟨-, h⟩ := of_refused h
  cases h
  obtain ⟨hclaims, hcollects, rfl, hbelow, hindexTables⟩ := loadCatalog_eq_ok hcatalog
  have hdistinct : ∀ (a b : String) (t t' : Table), s.objects[a]? = some t →
      s.objects[b]? = some t' → t.id = t'.id → a = b := by
    intro a b t t' ht ht' hid
    obtain ⟨d, hd, rfl, rfl⟩ := (hcollects.objects a t).mp ht
    obtain ⟨d', hd', rfl, rfl⟩ := (hcollects.objects b t').mp ht'
    cases hclaims.eq_of_stableId_eq hd hd' hid
    rfl
  have hempty : ∀ (name : String) (t : Table), s.objects[name]? = some t → t.rows = [] := by
    intro name t ht
    obtain ⟨d, -, -, rfl⟩ := (hcollects.objects name t).mp ht
    rfl
  have htables := loadRows_eq_ok hdistinct hempty hobjects
  obtain ⟨hrebuilt, hvalid⟩ := rebuildIndexes_eq_ok (by
    refine ⟨fun n shape d hd => ((hcollects.indexes n shape d).mp hd).2, fun n shape d hd => ?_,
      fun n shape d hd => ?_, fun n shape n' shape' d d' hd hd' hid => ?_⟩
    · obtain ⟨t₀, ht₀, hid⟩ := CatalogEntries.checkIndexTables_eq_ok hindexTables hd
      obtain ⟨e, he, rfl, rfl⟩ := (hcollects.objects n t₀).mp ht₀
      obtain ⟨t, ht, hloads⟩ := hcollects.exists_table htables he
      exact ⟨t, ht, hid.trans hloads.restored.id.symm⟩
    · exact UInt64.lt_of_le_of_lt
        (hclaims.bounded _ ((hcollects.indexes n shape d).mp hd).1) hbelow
    · obtain ⟨hmem, rfl⟩ := (hcollects.indexes n shape d).mp hd
      obtain ⟨hmem', rfl⟩ := (hcollects.indexes n' shape' d').mp hd'
      cases hclaims.eq_of_stableId_eq hmem hmem' hid
      exact ⟨rfl, rfl⟩) rfl (by
    intro name t ht
    obtain ⟨d, hd, -, hloads⟩ := hcollects.exists_entry htables ht
    exact hloads.restored.id ▸ hclaims.positive _ hd) (by
    intro name t ht
    obtain ⟨d, hd, -, hloads⟩ := hcollects.exists_entry htables ht
    exact hloads.numbered) hindexes
  exact ⟨s, _, built, hclaims, hcollects, hbelow, rfl, rfl, rfl, htables, hvalid, hrebuilt,
    hreferences⟩

namespace Loading

variable {db : Database} (h : Loading header entries rows s base built db)

include h

theorem exists_eq : ∃ definitions states, db =
    { built with referenceDefinitions := definitions, referenceStates := states } :=
  (loadReferences_eq_ok h.bound).1

theorem objects_eq : db.objects = base.objects := by
  obtain ⟨definitions, states, rfl⟩ := h.exists_eq
  exact h.rebuilt.objects

theorem types_eq : db.catalog.types = base.catalog.types := by
  obtain ⟨definitions, states, rfl⟩ := h.exists_eq
  exact h.rebuilt.types

/-- A loaded table is that of an entry. -/
theorem exists_entry (ht : db.objects[name]? = some t) :
    ∃ d, .table d ∈ entries ∧ d.name = name ∧ d.empty.Loads base.catalog (sortRows rows) t :=
  h.collects.exists_entry h.tables (h.objects_eq ▸ ht)

theorem exists_table {d : DurableTable} (hd : .table d ∈ entries) :
    ∃ t, db.objects[d.name]? = some t ∧ d.empty.Loads base.catalog (sortRows rows) t :=
  h.objects_eq ▸ h.collects.exists_table h.tables hd

theorem tablesWF : TablesWF db := by
  refine ⟨fun name t ht => ?_, fun a b t t' ht ht' hid => ?_⟩
  · obtain ⟨d, -, rfl, hloads⟩ := h.exists_entry ht
    exact hloads.restored.name
  · obtain ⟨d, hd, rfl, hloads⟩ := h.exists_entry ht
    obtain ⟨d', hd', rfl, hloads'⟩ := h.exists_entry ht'
    rw [hloads.restored.id, hloads'.restored.id] at hid
    cases h.claims.eq_of_stableId_eq hd hd' hid
    rfl

theorem ascending (ht : db.objects[name]? = some t) :
    RowsAscending t.rows ∧ ∀ row ∈ t.rows, row.id < t.nextRowId := by
  obtain ⟨hasc, hbelow, -⟩ := rowIdsValid_ascending (h.valid name t (h.objects_eq ▸ ht))
  exact ⟨hasc, hbelow⟩

/-- Every definition has its posting. -/
theorem posted {n shape : String} {d : IndexDefinition}
    (hd : (built.definitions n)[shape]? = some d) :
    ∃ posting, (built.tableIndexes n)[shape]? = some posting ∧ built.buildIndex n d = .ok posting ∧
      (d.isUnique = true → Database.hasDuplicate posting = false) := by
  have hmade : (n, shape) ∈ base.indexKeys :=
    (h.rebuilt.only n shape d hd).elim mem_indexKeys_of_definition And.left
  obtain ⟨posting, hposting⟩ := Option.isSome_iff_exists.mp (h.rebuilt.finished _ hmade)
  obtain ⟨d', hd', hbuild, hdup⟩ := h.rebuilt.posted n shape posting hposting
  cases hd.symm.trans hd'
  exact ⟨posting, hposting, hbuild, hdup⟩

theorem indexed : Indexed built := by
  have hobjects : db.objects = built.objects := h.objects_eq.trans h.rebuilt.objects.symm
  refine ⟨fun name t ht => ?_, fun name t ht => ?_, h.rebuilt.definitions.shapes,
    fun n shape posting hposting => ?_⟩
  · exact h.tablesWF.named name t (hobjects ▸ ht)
  · exact (h.ascending (hobjects ▸ ht)).1
  · obtain ⟨d, hd, hbuild, -⟩ := h.rebuilt.posted n shape posting hposting
    exact ⟨d, hd, hbuild⟩

/-- A primary key has a definition. -/
theorem primaryIndex (ht : db.objects[name]? = some t) (hkey : t.primaryKey = some key) :
    ((built.definitions name)[key]?).isSome = true := by
  have hmade : (name, key) ∈ base.indexKeys :=
    mem_indexKeys_of_primaryKey (h.objects_eq ▸ ht) hkey
  obtain ⟨posting, hposting⟩ := Option.isSome_iff_exists.mp (h.rebuilt.finished _ hmade)
  obtain ⟨d, hd, -⟩ := h.rebuilt.posted name key posting hposting
  exact Option.isSome_iff_exists.mpr ⟨d, hd⟩

end Loading

end Loading

/-! ## Consistency -/

/-- At most one row per primary-key value. -/
def PrimaryKeysDistinct (db : Database) : Prop :=
  ∀ (name : String) (t : Table), db.objects[name]? = some t → ∀ key, t.primaryKey = some key →
    ∀ r ∈ t.rows, ∀ s ∈ t.rows, ∀ x y, rowField r.fields key = some x →
      rowField s.fields key = some y → x.indexKey = y.indexKey → r = s

/-- The invariant of a database. -/
structure Consistent (db : Database) : Prop where
  ascending : ∀ (name : String) (t : Table), db.objects[name]? = some t → RowsAscending t.rows
  below : ∀ (name : String) (t : Table), db.objects[name]? = some t →
    ∀ row ∈ t.rows, row.id < t.nextRowId
  typed : ∀ (name : String) (t : Table), db.objects[name]? = some t →
    ∀ row ∈ t.rows, RowTyped db.catalog t row.fields
  defined : ∀ (n s : String) (posting : IndexPosting), (db.tableIndexes n)[s]? = some posting →
    ((db.definitions n)[s]?).isSome = true
  posted : ∀ (n s : String) (d : IndexDefinition), (db.definitions n)[s]? = some d →
    ∃ posting, (db.tableIndexes n)[s]? = some posting ∧ db.buildIndex n d = .ok posting
  primaryIndex : ∀ (name : String) (t : Table), db.objects[name]? = some t →
    ∀ key, t.primaryKey = some key → ((db.definitions name)[key]?).isSome = true
  unique : ∀ (name : String) (t : Table), db.objects[name]? = some t →
    ∀ d ∈ valuesOf (db.definitions name), d.isUnique = true →
      KeyUnique (rowKey db.catalog t.schema name d) t.rows
  primary : PrimaryKeysDistinct db
  references : ∀ d ∈ valuesOf db.referenceDefinitions, ReferenceSatisfied db d

def DifferentKeys (key : String) (r s : Row) : Prop :=
  ∀ x y, rowField r.fields key = some x → rowField s.fields key = some y → x.indexKey ≠ y.indexKey

theorem distinctKeys_eq_ok {seen : List IndexKey}
    (h : Database.validatePrimaryKeys.distinctKeys name key seen rows = .ok ()) :
    (∀ r ∈ rows, ∀ x, rowField r.fields key = some x → x.indexKey ∉ seen) ∧
      rows.Pairwise (DifferentKeys key) := by
  induction rows generalizing seen with
  | nil => simp
  | cons row rows ih =>
    unfold validatePrimaryKeys.distinctKeys at h
    split at h
    · cases h
    next v hv =>
    split at h
    · cases h
    next hnot =>
    obtain ⟨hseen, hpairs⟩ := ih h
    refine ⟨forall_mem_cons.mpr ⟨fun x hx => ?_, fun r hr x hx hmem => ?_⟩,
      pairwise_cons.mpr ⟨fun s hs x y hx hy heq => ?_, hpairs⟩⟩
    · cases hv.symm.trans hx
      exact hnot
    · exact hseen r hr x hx (mem_cons_of_mem _ hmem)
    · cases hv.symm.trans hx
      exact hseen s hs y hy (heq ▸ mem_cons_self)

/-- The check that a migration makes finds all duplicates. -/
theorem primaryKeysDistinct_of_validate
    (h : ∀ (name : String) (t : Table), db.objects[name]? = some t →
      db.validatePrimaryKeys name t.rows = .ok ()) : PrimaryKeysDistinct db := by
  intro name t ht key hkey r hr s hs x y hx hy heq
  have hrun := h name t ht
  simp only [validatePrimaryKeys, table_eq_ok.mpr ht, ok_bind, hkey] at hrun
  have hsymm : Std.Symm (DifferentKeys key) := ⟨fun _ _ h x y hx hy heq => h y x hy hx heq.symm⟩
  by_contra hne
  exact (distinctKeys_eq_ok hrun).2.forall hr hs hne x y hx hy heq

/-! ## Stored rows -/

/-- No two stored rows of a table share a primary key. -/
def StoredKeysDistinct (header : DurableMeta) (entries : List DurableCatalogEntry)
    (rows : List DurableRow) : Prop :=
  ∀ table, .table table ∈ entries → ∀ key, table.primaryKey = some key →
    ∀ a ∈ rowsOf table.id rows, ∀ b ∈ rowsOf table.id rows, ∀ fields fields' x y,
      decodeFields (durableCatalog header entries) table.empty a.bytes = .ok fields →
      decodeFields (durableCatalog header entries) table.empty b.bytes = .ok fields' →
      rowField fields key = some x → rowField fields' key = some y →
        x.indexKey = y.indexKey → a = b

section
variable {rows : List DurableRow}

theorem mem_rowsOf_sortRows {row : DurableRow} :
    row ∈ rowsOf id (sortRows rows) ↔ row ∈ rowsOf id rows := by
  simp [rowsOf, sortRows, (perm_insertionSort _ rows).mem_iff]

namespace Table.Loads

variable (h : t.Loads catalog (sortRows rows) t')

include h

theorem exists_row {stored : DurableRow} (hmem : stored ∈ rowsOf t.id rows) :
    ∃ row ∈ t'.rows, Decodes catalog t stored row :=
  exists_right_of_forall₂ h.rows (mem_rowsOf_sortRows.mpr hmem)

theorem exists_stored {row : Row} (hmem : row ∈ t'.rows) :
    ∃ stored ∈ rowsOf t.id rows, Decodes catalog t stored row := by
  obtain ⟨stored, hstored, hdecodes⟩ := exists_right_of_forall₂ h.rows.flip hmem
  exact ⟨stored, mem_rowsOf_sortRows.mp hstored, hdecodes⟩

/-- Stored rows are known by their identities. -/
theorem eq_of_rowId_eq (hasc : RowsAscending t'.rows) {a b : DurableRow}
    (ha : a ∈ rowsOf t.id rows) (hb : b ∈ rowsOf t.id rows) (hid : a.rowId = b.rowId) : a = b := by
  have hids : Forall₂ (· = ·) (t'.rows.map Row.id)
      ((rowsOf t.id (sortRows rows)).map DurableRow.rowId) := by
    rw [forall₂_map_left_iff, forall₂_map_right_iff]
    exact h.rows.flip.imp fun _ _ hdecodes => Decodes.id hdecodes
  rw [forall₂_eq_eq_eq] at hids
  have hnodup := hids ▸ hasc.nodup
  exact inj_on_of_nodup_map hnodup (mem_rowsOf_sortRows.mpr ha) (mem_rowsOf_sortRows.mpr hb) hid

end Table.Loads

variable [DurableExternal] {base built : Database}

theorem Loading.primaryKeysDistinct_iff (h : Loading header entries rows s base built db) :
    PrimaryKeysDistinct db ↔ StoredKeysDistinct header entries rows := by
  constructor
  · intro hdb table htable key hkey a ha b hb fields fields' x y hfields hfields' hx hy heq
    obtain ⟨t, ht, hloads⟩ := h.exists_table htable
    rw [h.catalog] at hloads
    obtain ⟨r, hr, hdr⟩ := hloads.exists_row ha
    obtain ⟨r', hr', hdr'⟩ := hloads.exists_row hb
    cases hfields.symm.trans hdr.fields
    cases hfields'.symm.trans hdr'.fields
    have hsame := hdb table.name t ht key (hloads.restored.primaryKey.trans hkey) r hr r' hr' x y hx
      hy heq
    refine hloads.eq_of_rowId_eq (h.ascending ht).1 ha hb ?_
    rw [← hdr.id, ← hdr'.id, hsame]
  · intro hstored name t ht key hkey r hr r' hr' x y hx hy heq
    obtain ⟨table, htable, rfl, hloads⟩ := h.exists_entry ht
    rw [h.catalog] at hloads
    obtain ⟨a, ha, hdr⟩ := hloads.exists_stored hr
    obtain ⟨b, hb, hdr'⟩ := hloads.exists_stored hr'
    have hsame := hstored table htable key (hloads.restored.primaryKey.symm.trans hkey) a ha b hb
      _ _ x y hdr.fields hdr'.fields hx hy heq
    exact (h.ascending ht).1.eq_of_id_eq hr hr' (by rw [hdr.id, hdr'.id, hsame])

/-- Loading establishes everything but that primary keys are distinct. -/
theorem Loading.consistent (h : Loading header entries rows s base built db)
    (hentries : ∀ entry ∈ entries, entry.WellFormed) (hkeys : PrimaryKeysDistinct db) :
    Consistent db := by
  obtain ⟨hwf, hids⟩ := durableCatalog_sound header hentries
  obtain ⟨-, -, hstates⟩ := loadReferences_eq_ok h.bound
  have htypes := h.types_eq
  have hasc := fun (name : String) (t : Table) (ht : db.objects[name]? = some t) => h.ascending ht
  have hentry := fun (name : String) (t : Table) (ht : db.objects[name]? = some t) =>
    h.exists_entry ht
  have hprimary := fun (name : String) (t : Table) (ht : db.objects[name]? = some t) (key : String)
    (hkey : t.primaryKey = some key) => h.primaryIndex ht hkey
  obtain ⟨definitions, states, rfl⟩ := h.exists_eq
  refine ⟨fun name t ht => (hasc name t ht).1, fun name t ht => (hasc name t ht).2,
    fun name t ht row hrow => ?_, fun n shape posting hposting => ?_, fun n shape d hd => ?_,
    hprimary, fun name t ht d hd hunique => ?_, hkeys, fun d hd => ?_⟩
  · obtain ⟨e, he, -, hloads⟩ := hentry name t ht
    rw [h.catalog] at hloads htypes
    obtain ⟨stored, -, hdecodes⟩ := hloads.exists_stored hrow
    exact (rowTyped_congr htypes).mpr ((RowTyped.restored hloads.restored).mpr
      (decodeFields_typed hwf hids (hentries _ he) hdecodes.fields))
  · obtain ⟨d, hd, -⟩ := h.rebuilt.posted n shape posting hposting
    exact Option.isSome_iff_exists.mpr ⟨d, hd⟩
  · obtain ⟨posting, hposting, hbuild, -⟩ := h.posted hd
    exact ⟨posting, hposting, (buildIndex_congr rfl rfl n d).trans hbuild⟩
  · obtain ⟨shape, hshape⟩ := mem_valuesOf.mp hd
    obtain ⟨posting, -, hbuild, hdup⟩ := h.posted hshape
    obtain ⟨-, hrep⟩ :=
      Database.buildIndex_represents (Database.table_eq_ok.mpr ht) (hasc name t ht).1 hbuild
    exact keyUnique_of_hasDuplicate (hasc name t ht).1 hrep (hdup hunique)
  · obtain ⟨source, target, state, hnames, hstate⟩ := hstates d hd
    exact buildReferenceState_satisfied h.indexed hnames hstate

end

/-- Digests that tell nothing apart. -/
abbrev blindExternal : DurableExternal where
  rowSize _ := 0
  rowsSize _ := 0
  predicateDigest _ := ""
  schemaHash _ := ""
  referenceJson _ := []
  validateHistory _ := pure ()

/-- A table `t` whose one column `id` is its primary key. -/
def keyedEntry : DurableCatalogEntry :=
  .table ⟨1, "t", [⟨"id", .int, none, 2⟩], none, some "id", 2, ∅⟩

/-- A stored row of `t`. -/
def keyedRow (rowId : RowId) (id : UInt8) : DurableRow :=
  ⟨1, rowId, [85, 73, 68, 86, 0, 1, 0, 0, 0, 1, 0, 0, 0, 0, 0, 0, 0, 2, 0, 0, 0, 0, 0, 0, 0, id]⟩

theorem keyedEntry_wellFormed : ∀ entry ∈ [keyedEntry], entry.WellFormed := by
  intro entry hentry
  obtain rfl := mem_singleton.mp hentry
  refine Catalog.bound_record (by simp) (by simp) fun c hc => ?_
  obtain rfl := mem_singleton.mp hc
  exact ⟨.int, .node trivial (by simp [ScalarType.parts])⟩

end UnionId
