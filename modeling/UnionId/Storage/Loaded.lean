import UnionId.Db.DurableSound
import UnionId.Model.RowTyping
import UnionId.Storage.Posting

/-!
# The catalog of a loaded database

The check of a storage generation runs on the catalog that loading has built, and takes
from it that tables, indexes and references agree. Loading establishes this for entries
whose indexes name the fields that their paths lead to.
-/
namespace UnionId

open Lib Std List Database

variable {header : DurableMeta} {entries : List DurableCatalogEntry} {rows : List DurableRow}
  {s : CatalogEntries} {base built db : Database} {target : Table}
  {d original : ReferenceDefinition} {index : IndexDefinition}

/-- Index entries fit their tables: a component names the field that its path leads to, and
the index with the name of the primary key is the index of the primary key. -/
structure IndexesAgree [External] (header : DurableMeta)
    (entries : List DurableCatalogEntry) : Prop where
  paths : ∀ t index, .table t ∈ entries → .index t.name index ∈ entries →
    ∀ c ∈ index.effectiveComponents,
      (durableCatalog header entries).fieldPathIds t.schema c.column = .ok c.fieldPath
  primary : ∀ t index, .table t ∈ entries → .index t.name index ∈ entries →
    t.primaryKey = some index.shapeKey → index.isPrimaryIndex t.primaryKey = true

/-! ## Bound references -/

/-- A stored reference after it has been bound again. -/
structure Rebound (db : Database) (original d : ReferenceDefinition) (source target : Table) :
    Prop where
  id : d.id = original.id
  sourced : db.tableById d.tableId = some source
  targeted : db.tableById d.targetTableId = some target
  types : ∀ c ∈ d.components, db.catalog.fieldType target.schema c.targetColumn = .ok c.targetType
  paths : ∀ c ∈ d.components,
    db.catalog.fieldPathIds target.schema c.targetColumn = .ok c.targetFieldPath
  primary : d.target = .primaryKey → db.referencesPrimaryKey target d.components = true
  unique : ∀ id, d.target = .uniqueIndex id → ∃ index ∈ valuesOf (db.definitions target.name),
    index.id = id ∧ coversReference index d.components = true

theorem bindReferenceComponent_eq_ok {spec : ReferenceSpec} {source : Table}
    {fields : String × String} {c : ReferenceComponent}
    (h : db.bindReferenceComponent spec source target fields = .ok c) :
    db.catalog.fieldType target.schema c.targetColumn = .ok c.targetType ∧
      db.catalog.fieldPathIds target.schema c.targetColumn = .ok c.targetFieldPath := by
  obtain ⟨sourceType, -, targetType, htype, h⟩ := of_bind₂ h
  obtain ⟨mode, -, fieldPath, -, h⟩ := of_bind₂ h
  obtain ⟨path, hpath, rfl⟩ := of_bind_pure h
  exact ⟨htype, hpath⟩

theorem referenceTarget_eq_primaryKey {components : List ReferenceComponent}
    (h : db.referenceTarget target components = .ok .primaryKey) :
    db.referencesPrimaryKey target components = true := by
  unfold referenceTarget at h
  split at h
  · assumption
  · split at h <;> cases h

theorem tableById_name (hw : TablesWF db) {id : UInt64} {t t' : Table}
    (h : db.tableById id = some t) (h' : db.table t.name = .ok t') : t' = t ∧ t.id = id := by
  obtain ⟨name, hname⟩ := tableById_mem h
  rw [table_eq_ok, hw.named name t hname, hname] at h'
  exact ⟨(Option.some.inj h').symm, by simpa using find?_some h⟩

theorem rebindReference_eq_ok (hw : TablesWF db) (h : db.rebindReference original = .ok d) :
    ∃ source target, Rebound db original d source target := by
  obtain ⟨source, hsource, target, htarget, h⟩ := of_bind₂ h
  obtain ⟨fields, -, targetFields, -, h⟩ := of_bind₂ h
  obtain ⟨bound, hbound, h⟩ := of_bind h
  obtain ⟨hchecks, h⟩ := of_required h
  cases h
  have hfound : ∀ {α : Type} {message : String} {o : Option α} {a : α},
      orMigration message o = .ok a → o = some a := by
    intro α message o a h
    cases o <;> cases h
    rfl
  have hsource := hfound hsource
  have htarget := hfound htarget
  unfold bindReference at hbound
  obtain ⟨-, hbound⟩ := of_refused hbound
  obtain ⟨-, hbound⟩ := of_refused hbound
  obtain ⟨source', hsource', target', htarget', hbound⟩ := of_bind₂ hbound
  obtain ⟨components, hcomponents, referenced, hreferenced, hbound⟩ := of_bind₂ hbound
  cases hbound
  obtain ⟨rfl, hsourceId⟩ := tableById_name hw hsource hsource'
  obtain ⟨rfl, htargetId⟩ := tableById_name hw htarget htarget'
  have hall : ∀ c ∈ components, db.catalog.fieldType target'.schema c.targetColumn =
      .ok c.targetType ∧ db.catalog.fieldPathIds target'.schema c.targetColumn =
        .ok c.targetFieldPath := by
    intro c hc
    obtain ⟨fields, -, hbind⟩ := exists_right_of_forall₂ (mapM_eq_ok_iff.mp hcomponents).flip hc
    exact bindReferenceComponent_eq_ok hbind
  obtain ⟨hpinned, -⟩ := Bool.and_eq_true_iff.mp hchecks
  refine ⟨source', target', rfl, hsourceId ▸ hsource, htargetId ▸ htarget, fun c hc =>
    (hall c hc).1,
    fun c hc => (hall c hc).2, fun hprimary => ?_, fun id hunique => ?_⟩
  · have hprimary : original.target = .primaryKey := hprimary
    rw [pinnedValid, hprimary] at hpinned
    have hreferenced' : referenced = .primaryKey := by simpa using hpinned
    exact referenceTarget_eq_primaryKey (hreferenced' ▸ hreferenced)
  · have hunique : original.target = .uniqueIndex id := hunique
    rw [pinnedValid, hunique] at hpinned
    simpa [and_assoc] using hpinned

/-! ## Target indexes -/

theorem postings_perm : db.postings.Perm
    ((db.indexDefinitions.toList.flatMap fun p => (valuesOf p.2).map PostingDefinition.index) ++
      (valuesOf db.referenceDefinitions).map PostingDefinition.reference) := by
  unfold postings durableCatalogEntries
  refine ((mergeSort_perm _ _).filterMap DurableCatalogEntry.posting?).trans (.of_eq ?_)
  simp [filterMap_append, filterMap_map, filterMap_flatMap, Function.comp_def,
    DurableCatalogEntry.posting?, filterMap_eq_map']

/-- The components of an index over given fields. -/
theorem map_eq_map_of_map_eq {α β κ ν : Type} {f : α → κ} {g : β → κ} {p : α → ν} {q : β → ν}
    {l : List α} {l' : List β} (h : ∀ a ∈ l, ∀ b ∈ l', f a = g b → p a = q b)
    (heq : l.map f = l'.map g) : l.map p = l'.map q := by
  induction l generalizing l' with
  | nil =>
    cases l' with
    | nil => rfl
    | cons => cases heq
  | cons a l ih =>
    cases l' with
    | nil => cases heq
    | cons b l' =>
      obtain ⟨hab, htail⟩ := cons_eq_cons.mp heq
      obtain ⟨ha, hl⟩ := forall_mem_cons.mp h
      rw [map_cons, map_cons, ha b mem_cons_self hab,
        ih (fun a ha b hb => hl a ha b (mem_cons_of_mem _ hb)) htail]

theorem lt_append_of_ne_nil {α : Type} [LT α] (l : List α) {l' : List α} (h : l' ≠ []) :
    l < l ++ l' := by
  obtain ⟨a, l', rfl⟩ := exists_cons_of_ne_nil h
  have hlt : l ++ [] < l ++ a :: l' := append_left_lt (nil_lt_cons a l')
  simpa using hlt

/-- An index of the primary key at its own name has no predicate. -/
theorem predicate_eq_none [External] {key : String}
    (hprimary : index.isPrimaryIndex (some key) = true)
    (hle : compare index.shapeKey key ≠ .gt) : index.predicate = none := by
  unfold IndexDefinition.isPrimaryIndex at hprimary
  split at hprimary
  · next c hc =>
    simp only [Bool.and_eq_true, Bool.not_eq_true', decide_eq_true_eq, Option.some.injEq]
      at hprimary
    obtain ⟨hdescending, rfl⟩ := hprimary
    cases hpredicate : index.predicate with
    | none => rfl
    | some predicate =>
      have hshape : index.shapeKey = c.column ++ (" if " ++ predicate.identityKey) := by
        simp [IndexDefinition.shapeKey, hpredicate, hc, IndexDefinition.joinComponents,
          hdescending, String.append_assoc]
      refine absurd ?_ hle
      rw [hshape, compare_gt_iff_gt, String.lt_iff_toList_lt, String.toList_append,
        String.toList_append]
      exact lt_append_of_ne_nil _ (by simp)
  · cases hprimary

namespace Loading

variable [DurableExternal] (h : Loading header entries rows s base built db)

include h

theorem defined : Defined db := by
  obtain ⟨definitions, states, rfl⟩ := h.exists_eq
  have hbuilt := h.rebuilt.definitions
  exact ⟨hbuilt.1, hbuilt.2, hbuilt.3, hbuilt.4⟩

/-- A definition is that of an entry, or was made for a primary key. -/
theorem index_cases {n shape : String} {d : IndexDefinition}
    (hd : (db.definitions n)[shape]? = some d) :
    .index n d ∈ entries ∨ header.nextCatalogId ≤ d.id ∧ d.isUnique = false ∧
      d.isPrimaryIndex (some shape) = true := by
  obtain ⟨definitions, states, rfl⟩ := h.exists_eq
  obtain hbase | ⟨-, hmade⟩ := h.rebuilt.only n shape d hd
  · refine .inl ((h.collects.indexes n shape d).mp ?_).1
    rw [← hbase, Database.definitions, h.definitions]
  · exact .inr ⟨by simpa [h.catalog, durableCatalog] using hmade.fresh, hmade.ordinary,
      hmade.primary⟩

/-- A reference is a stored one, bound again. -/
theorem exists_rebound {id : UInt64} (hd : db.referenceDefinitions[id]? = some d) :
    d.id = id ∧ ∃ original source target, .reference original ∈ entries ∧
      Rebound db original d source target := by
  obtain ⟨-, hbound, -⟩ := loadReferences_eq_ok h.bound
  obtain ⟨hid, original, horiginal, hrebind⟩ := boundReferenceDefinitions_eq_ok hbound id d hd
  have hentry : .reference original ∈ entries := by
    rw [h.rebuilt.references, h.referenceDefinitions] at horiginal
    obtain ⟨id', hid'⟩ := mem_valuesOf.mp horiginal
    exact ((h.collects.references id' original).mp hid').1
  have hw := h.tablesWF
  obtain ⟨definitions, states, rfl⟩ := h.exists_eq
  obtain ⟨source, target, hrebound⟩ := rebindReference_eq_ok ⟨hw.named, hw.distinct⟩ hrebind
  exact ⟨hid, original, source, target, hentry, hrebound.1, hrebound.2, hrebound.3, hrebound.4,
    hrebound.5, hrebound.6, hrebound.7⟩

/-- Definitions of one identity are in one place. -/
theorem nodup_indexIds :
    (db.indexDefinitions.toList.flatMap fun p => (valuesOf p.2).map IndexDefinition.id).Nodup := by
  have hat : ∀ p ∈ db.indexDefinitions.toList, ∀ q ∈ p.2.toList,
      (db.definitions p.1)[q.1]? = some q.2 := by
    intro p hp q hq
    rw [Database.definitions, ExtTreeMap.mem_toList_iff_getElem?_eq_some.mp hp, Option.getD_some]
    exact ExtTreeMap.mem_toList_iff_getElem?_eq_some.mp hq
  refine nodup_flatMap.mpr ⟨fun p hp => ?_, ?_⟩
  · rw [valuesOf, map_map, Nodup, pairwise_map]
    refine ExtTreeMap.distinct_keys_toList.imp_of_mem fun {q r} hq hr hne hid => hne ?_
    rw [(h.defined.distinct _ _ _ _ _ _ (hat p hp q hq) (hat p hp r hr) hid).2,
      ReflOrd.compare_self]
  · refine ExtTreeMap.distinct_keys_toList.imp_of_mem fun {p q} hp hq hne => ?_
    intro id hid hid'
    simp only [valuesOf, map_map, mem_map, Function.comp_apply] at hid hid'
    obtain ⟨r, hr, rfl⟩ := hid
    obtain ⟨r', hr', hid'⟩ := hid'
    refine hne ?_
    rw [(h.defined.distinct _ _ _ _ _ _ (hat p hp r hr) (hat q hq r' hr') hid'.symm).1,
      ReflOrd.compare_self]

/-- Indexes and references have identities of their own. -/
theorem nodup_ids : (db.postings.map PostingDefinition.id).Nodup := by
  rw [(postings_perm.map PostingDefinition.id).nodup_iff, map_append, map_flatMap, map_map]
  simp only [map_map, Function.comp_def, PostingDefinition.id]
  refine nodup_append.mpr ⟨h.nodup_indexIds, nodup_map_valuesOf fun id d hd =>
    (h.exists_rebound hd).1, ?_⟩
  rintro id hindex _ hreference rfl
  obtain ⟨p, hp, hindex⟩ := mem_flatMap.mp hindex
  obtain ⟨index, hmem, rfl⟩ := mem_map.mp hindex
  obtain ⟨d, hd, hid⟩ := mem_map.mp hreference
  obtain ⟨shape, hshape⟩ := mem_valuesOf.mp hmem
  obtain ⟨id, hd⟩ := mem_valuesOf.mp hd
  obtain ⟨-, original, _, _, hentry, hrebound⟩ := h.exists_rebound hd
  have hdefined : (db.definitions p.1)[shape]? = some index := by
    rw [Database.definitions, ExtTreeMap.mem_toList_iff_getElem?_eq_some.mp hp, Option.getD_some,
      hshape]
  obtain hindex | ⟨hnew, -⟩ := h.index_cases hdefined
  · cases h.claims.eq_of_stableId_eq hindex hentry (hid.symm.trans hrebound.id)
  · have hle := h.claims.bounded _ hentry
    rw [DurableCatalogEntry.stableId, ← hrebound.id, hid] at hle
    exact absurd (UInt64.lt_of_le_of_lt hle h.below) (UInt64.not_lt.mpr hnew)

variable (hentries : ∀ entry ∈ entries, entry.WellFormed) (hagree : IndexesAgree header entries)

include hentries in
/-- A path of identities leads to one field of a loaded table. -/
theorem path_injective {name : String} {t : Table} (ht : db.objects[name]? = some t)
    {path path' : String} {ids : List UInt64}
    (hpath : db.catalog.fieldPathIds t.schema path = .ok ids)
    (hpath' : db.catalog.fieldPathIds t.schema path' = .ok ids) : path = path' := by
  obtain ⟨e, he, -, hloads⟩ := h.exists_entry ht
  have hbound : (ScalarType.record t.schema).Bound := hloads.restored.schema ▸ hentries _ he
  have htypes := h.types_eq
  rw [h.catalog] at htypes
  rw [Catalog.fieldPathIds_congr htypes] at hpath hpath'
  exact Catalog.fieldPathIds_injective (durableCatalog_sound header hentries).2
    hbound.uniqueIds.here (fun c hc => hbound.uniqueIds.field hc) hpath hpath'

include hagree in
/-- The definition at the name of the primary key is its index. -/
theorem exists_primaryIndex {t : Table} {key : String}
    (ht : db.objects[t.name]? = some t) (hkey : t.primaryKey = some key) :
    ∃ first, (db.definitions t.name)[key]? = some first ∧
      first.isPrimaryIndex (some key) = true := by
  obtain ⟨first, hfirst⟩ := Option.isSome_iff_exists.mp (h.primaryIndex ht hkey)
  have hfirst : (db.definitions t.name)[key]? = some first := by
    obtain ⟨definitions, states, rfl⟩ := h.exists_eq
    exact hfirst
  refine ⟨first, hfirst, ?_⟩
  obtain hentry | ⟨-, -, hprimary⟩ := h.index_cases hfirst
  · obtain ⟨e, he, hname, hloads⟩ := h.exists_entry ht
    have hkey' : e.primaryKey = some key := hloads.restored.primaryKey.symm.trans hkey
    have hshape := h.defined.shapes _ _ _ hfirst
    exact hkey' ▸ hagree.primary e first he (hname ▸ hentry) (hshape ▸ hkey')
  · exact hprimary

include hentries hagree

theorem primaryBound {source t : Table} (ht : db.objects[t.name]? = some t)
    (hrebound : Rebound db original d source t)
    (hprimary : db.referencesPrimaryKey t d.components = true)
    (hfind : (valuesOf (db.definitions t.name)).find?
      (fun index => index.isPrimaryIndex t.primaryKey) = some index) :
    index.predicate = none ∧ index.effectiveComponents.map (fun c => c.column) =
      d.components.map fun c => c.targetColumn := by
  unfold referencesPrimaryKey at hprimary
  split at hprimary
  · next component key hcomponents hkey =>
    rw [hkey] at hfind
    have hindex : index.isPrimaryIndex (some key) = true := by simpa using find?_some hfind
    refine ⟨?_, ?_⟩
    · -- a partial index of the key comes after the index of the key itself
      obtain ⟨first, hfirst, hp⟩ := h.exists_primaryIndex hagree ht hkey
      obtain ⟨shape, hshape, hle⟩ := le_of_find?_valuesOf hfind hfirst hp
      exact predicate_eq_none hindex ((h.defined.shapes _ _ _ hshape).symm ▸ hle)
    · have hcolumns : index.effectiveComponents.map (fun c => c.column) = [key] := by
        unfold IndexDefinition.isPrimaryIndex at hindex
        split at hindex
        · next c hc => simp_all
        · cases hindex
      rw [hcolumns, hcomponents, map_singleton]
      split at hprimary
      · next path hpath =>
        obtain rfl := of_decide_eq_true hprimary
        rw [h.path_injective hentries ht hpath (hrebound.paths component (by simp [hcomponents]))]
      · cases hprimary
  · cases hprimary

theorem uniqueBound {source t : Table} (ht : db.objects[t.name]? = some t)
    (hrebound : Rebound db original d source t) {shape : String}
    (hindex : (db.definitions t.name)[shape]? = some index)
    (hcovers : coversReference index d.components = true) :
    index.predicate = none ∧ index.effectiveComponents.map (fun c => c.column) =
      d.components.map fun c => c.targetColumn := by
  simp only [coversReference, Bool.and_eq_true, Option.isNone_iff_eq_none, decide_eq_true_eq]
    at hcovers
  obtain ⟨⟨hunique, hpredicate⟩, hpaths⟩ := hcovers
  refine ⟨hpredicate, map_eq_map_of_map_eq (fun c hc c' hc' hpath => ?_) hpaths⟩
  obtain hentry | ⟨-, hordinary, -⟩ := h.index_cases hindex
  · obtain ⟨e, he, hname, hloads⟩ := h.exists_entry ht
    have htypes := h.types_eq
    rw [h.catalog] at htypes
    have hcolumn : db.catalog.fieldPathIds t.schema c.column = .ok c'.targetFieldPath := by
      rw [Catalog.fieldPathIds_congr htypes, ← hpath, hloads.restored.schema]
      exact hagree.paths e index he (hname ▸ hentry) c hc
    exact h.path_injective hentries ht hcolumn (hrebound.paths c' hc')
  · cases hunique.symm.trans hordinary

/-- The index that a reference is checked in covers the fields it refers to. -/
theorem referenceBound {id : UInt64}
    (hd : db.referenceDefinitions[id]? = some d) :
    ∃ target index, ReferenceBound db d target index := by
  obtain ⟨-, original, source, target, -, hrebound⟩ := h.exists_rebound hd
  obtain ⟨tname, htname⟩ := tableById_mem hrebound.targeted
  have ht : db.objects[target.name]? = some target := by
    rwa [h.tablesWF.named tname target htname]
  obtain ⟨-, -, hstates⟩ := loadReferences_eq_ok h.bound
  obtain ⟨_, _, state, -, hstate⟩ := hstates d (mem_valuesOf.mpr ⟨id, hd⟩)
  obtain ⟨⟨t, index⟩, hresolves, -⟩ := of_bind hstate
  have hresolves : db.referenceTargetIndex d = .ok (t, index) := by
    obtain ⟨definitions, states, rfl⟩ := h.exists_eq
    exact hresolves
  obtain ⟨htarget, hmem⟩ := referenceTargetIndex_eq_ok hresolves
  cases hrebound.targeted.symm.trans htarget
  have hbound : index.predicate = none ∧ (index.effectiveComponents.map fun c => c.column) =
      (d.components.map fun c => c.targetColumn) ∧ constrains index target.primaryKey = true := by
    have hresolved := hresolves
    rw [referenceTargetIndex, targetTable, htarget, ok_bind] at hresolved
    split at hresolved
    · next found hfind =>
      cases hresolved
      cases hkind : d.target with
      | primaryKey =>
        simp only [hkind] at hfind
        have hprimary : index.isPrimaryIndex target.primaryKey = true := by
          simpa using find?_some hfind
        obtain ⟨hpredicate, hcolumns⟩ := h.primaryBound hentries hagree ht hrebound
          (hrebound.primary hkind) hfind
        exact ⟨hpredicate, hcolumns, by simp [constrains, hprimary]⟩
      | uniqueIndex indexId =>
        simp only [hkind] at hfind
        obtain ⟨index', hmem', hid', hcovers⟩ := hrebound.unique indexId hkind
        obtain ⟨shape, hshape⟩ := mem_valuesOf.mp hmem
        obtain ⟨shape', hshape'⟩ := mem_valuesOf.mp hmem'
        have hid : index.id = indexId := by simpa using find?_some hfind
        obtain ⟨-, rfl⟩ := h.defined.distinct _ _ _ _ _ _ hshape hshape' (hid.trans hid'.symm)
        cases hshape.symm.trans hshape'
        obtain ⟨hpredicate, hcolumns⟩ := h.uniqueBound hentries hagree ht hrebound hshape hcovers
        have hunique : index.isUnique = true := by
          simp only [coversReference, Bool.and_eq_true] at hcovers
          exact hcovers.1.1
        exact ⟨hpredicate, hcolumns, by simp [constrains, hunique]⟩
    · cases hresolved
  exact ⟨target, index, hresolves, hbound.1, hbound.2.1, hrebound.types, hbound.2.2⟩

theorem postingsConsistent : PostingsConsistent db := by
  obtain ⟨hwf, hids⟩ := durableCatalog_sound header hentries
  have htypes := h.types_eq
  rw [h.catalog] at htypes
  have hdefinition := Catalog.definition_congr htypes
  refine ⟨h.tablesWF, fun id d hd => hwf id d (hdefinition ▸ hd),
    fun id d hd => hids id d (hdefinition ▸ hd), fun t ht => ?_, fun name d hd => ?_, h.nodup_ids,
    fun id d hd => (h.exists_rebound hd).1, fun d hd => ?_, fun d hd => ?_⟩
  · obtain ⟨name, ht⟩ := mem_valuesOf.mp ht
    obtain ⟨e, he, -, hloads⟩ := h.exists_entry ht
    exact rowScalarType_bound (hloads.restored.schema ▸ hentries _ he)
  · obtain ⟨shape, hd⟩ := mem_valuesOf.mp hd
    exact h.defined.tables name shape d hd
  · obtain ⟨id, hd⟩ := mem_valuesOf.mp hd
    obtain ⟨-, original, source, target, -, hrebound⟩ := h.exists_rebound hd
    exact ⟨source, mem_of_find?_eq_some hrebound.sourced,
      by simpa using find?_some hrebound.sourced⟩
  · obtain ⟨id, hd⟩ := mem_valuesOf.mp hd
    exact h.referenceBound hentries hagree hd

end Loading

/-- **Loading establishes what the check of stored postings assumes.** -/
theorem fromDurable_postingsConsistent [DurableExternal]
    (hentries : ∀ entry ∈ entries, entry.WellFormed)
    (hagree : IndexesAgree header entries) {history : List MigrationEntry} {loaded : LoadedDatabase}
    (h : fromDurable header entries rows history = .ok loaded) :
    PostingsConsistent loaded.database := by
  obtain ⟨s, base, built, hloading⟩ := fromDurable_eq_ok h
  exact hloading.postingsConsistent hentries hagree

end UnionId
