import UnionId.Db.Durable
import UnionId.Db.Tables

/-!
# What loading reads

The loader collects the catalog entries into maps and reads the rows into their tables.
The maps hold exactly the entries, whose identities are distinct, and the rows of a table
are those stored for its identity, each as the decoder reads it.

## Main results

* `loadCatalog_eq_ok` — all entries are collected.
* `loadRows_eq_ok` — the rows of every table.
-/
namespace UnionId

open Lib Std List

/-! ## Catalog entries -/

/-- The types that the entries declare. -/
def declaredTypes (entries : List DurableCatalogEntry) : ExtTreeMap String TypeDefinition :=
  entries.foldl (fun types entry =>
    match entry with
    | .type definition => types.insert definition.name definition
    | _ => types) ∅

/-- The catalog in which stored rows are read. -/
def durableCatalog (header : DurableMeta) (entries : List DurableCatalogEntry) : Catalog where
  types := declaredTypes entries
  nextId := header.nextCatalogId

theorem mem_of_declaredTypes {entries : List DurableCatalogEntry} {name : String}
    {d : TypeDefinition} (h : (declaredTypes entries)[name]? = some d) : .type d ∈ entries := by
  induction entries using List.reverseRecOn with
  | nil => simp [declaredTypes] at h
  | append_singleton entries entry ih =>
    rw [declaredTypes, foldl_append, ← declaredTypes] at h
    rw [mem_append, mem_singleton]
    cases entry with
    | type definition =>
      change ((declaredTypes entries).insert _ _)[name]? = _ at h
      rw [ExtTreeMap.getElem?_insert] at h
      split at h
      · exact .inr (congrArg _ (Option.some.inj h).symm)
      · exact .inl (ih h)
    | _ => exact .inl (ih h)

/-- Lookup in a map of maps after an insertion. -/
theorem getElem?_insert_insert {ν : Type} (m : ExtTreeMap String (ExtTreeMap String ν))
    (name shape : String) (d : ν) (n s : String) :
    ((m.insert name (((m[name]? : Option (ExtTreeMap String ν)).getD ∅).insert shape d))[n]?.getD
      ∅)[s]? = if n = name ∧ s = shape then some d else (m[n]?.getD ∅)[s]? := by
  rw [ExtTreeMap.getElem?_insert]
  by_cases hn : n = name
  · subst hn
    rw [if_pos compare_self, Option.getD_some, ExtTreeMap.getElem?_insert]
    by_cases hs : s = shape
    · simp [hs]
    · rw [if_neg (by simpa using Ne.symm hs), if_neg (by simp [hs])]
  · rw [if_neg (by simpa using Ne.symm hn), if_neg (by simp [hn])]

namespace CatalogEntries

/-- The identities of the entries seen so far. -/
structure Claims (s : CatalogEntries) (seen : List DurableCatalogEntry) : Prop where
  distinct : (seen.map DurableCatalogEntry.stableId).Nodup
  mem_ids : ∀ id, id ∈ s.ids ↔ id ∈ seen.map DurableCatalogEntry.stableId
  positive : ∀ entry ∈ seen, entry.stableId ≠ 0
  bounded : ∀ entry ∈ seen, entry.stableId ≤ s.maxId

/-- The maps hold the entries seen so far. -/
structure Collects [External] (s : CatalogEntries) (seen : List DurableCatalogEntry) : Prop where
  types : s.types = declaredTypes seen
  objects : ∀ (name : String) (t : Table), s.objects[name]? = some t ↔
    ∃ d, .table d ∈ seen ∧ d.name = name ∧ d.empty = t
  indexes : ∀ (name shape : String) (d : IndexDefinition),
    (s.indexDefinitions[name]?.getD ∅)[shape]? = some d ↔ .index name d ∈ seen ∧ d.shapeKey = shape
  references : ∀ (id : UInt64) (d : ReferenceDefinition), s.referenceDefinitions[id]? = some d ↔
    .reference d ∈ seen ∧ d.id = id

variable {s s' : CatalogEntries} {seen : List DurableCatalogEntry} {entry : DurableCatalogEntry}

theorem claimId_eq_ok {id : UInt64} (h : s.claimId id = .ok s') :
    id ≠ 0 ∧ id ∉ s.ids ∧ s' = { s with ids := s.ids.insert id, maxId := max s.maxId id } := by
  unfold claimId at h
  obtain ⟨hid, h⟩ := of_refused h
  cases h
  exact ⟨(not_or.mp hid).1, (not_or.mp hid).2, rfl⟩

theorem Claims.claimId (hs : s.Claims seen) (h : s.claimId entry.stableId = .ok s') :
    s'.Claims (seen ++ [entry]) := by
  obtain ⟨hzero, hnew, rfl⟩ := claimId_eq_ok h
  have hmax : ∀ a b : UInt64, a ≤ max a b ∧ b ≤ max a b := by
    intro a b
    simp only [max]
    split
    · exact ⟨‹_›, UInt64.le_refl b⟩
    · next hlt => exact ⟨UInt64.le_refl a, UInt64.le_of_lt (UInt64.not_le.mp hlt)⟩
  refine ⟨?_, fun id => ?_, ?_, ?_⟩
  · rw [map_append, nodup_append]
    refine ⟨hs.distinct, by simp, ?_⟩
    rintro id hid _ hentry rfl
    rw [map_singleton, mem_singleton] at hentry
    exact hnew (hentry ▸ (hs.mem_ids id).mpr hid)
  · rw [ExtTreeSet.mem_insert, hs.mem_ids, Std.compare_eq_iff_eq, map_append, mem_append, or_comm,
      map_singleton, mem_singleton, eq_comm]
  · simpa [or_imp, forall_and] using ⟨hs.positive, hzero⟩
  · simp only [mem_append, mem_singleton, or_imp, forall_and, forall_eq]
    exact ⟨fun e he => UInt64.le_trans (hs.bounded e he) (hmax _ _).1, (hmax _ _).2⟩

variable [External]

theorem Collects.addEntry (hc : s.Claims seen) (hs : s.Collects seen)
    (h : s.addEntry entry = .ok s') :
    s'.Claims (seen ++ [entry]) ∧ s'.Collects (seen ++ [entry]) := by
  obtain ⟨s₁, hclaim, h⟩ := of_bind h
  have hclaims := hc.claimId hclaim
  obtain ⟨-, hnew, rfl⟩ := claimId_eq_ok hclaim
  cases entry with
  | sequence sequence =>
    simp only [addSequence] at h
    obtain ⟨-, h⟩ := of_refused h
    cases h
    refine ⟨⟨hclaims.1, hclaims.2, hclaims.3, hclaims.4⟩, ?_, ?_, ?_, ?_⟩
    · simpa [declaredTypes] using hs.types
    · simpa using hs.objects
    · simpa using hs.indexes
    · simpa using hs.references
  | reference definition =>
    cases h
    refine ⟨⟨hclaims.1, hclaims.2, hclaims.3, hclaims.4⟩, ?_, ?_, ?_, fun id d => ?_⟩
    · simpa [declaredTypes] using hs.types
    · simpa using hs.objects
    · simpa using hs.indexes
    · have hfresh : definition.id ∉ s.referenceDefinitions := by
        intro hmem
        rw [ExtTreeMap.mem_iff_isSome_getElem?] at hmem
        obtain ⟨d, hd⟩ := Option.isSome_iff_exists.mp hmem
        obtain ⟨hd, hid⟩ := (hs.references _ _).mp hd
        exact hnew ((hc.mem_ids _).mpr (mem_map.mpr ⟨_, hd, hid⟩))
      rw [getElem?_insert_of_notMem hfresh, hs.references]
      simp only [mem_append, mem_singleton, DurableCatalogEntry.reference.injEq]
      constructor
      · rintro (⟨rfl, rfl⟩ | ⟨hd, hid⟩)
        · exact ⟨.inr rfl, rfl⟩
        · exact ⟨.inl hd, hid⟩
      · rintro ⟨hd | rfl, hid⟩
        · exact .inr ⟨hd, hid⟩
        · exact .inl ⟨hid, rfl⟩
  | type definition =>
    simp only [addType] at h
    obtain ⟨-, h⟩ := of_refused h
    cases h
    refine ⟨⟨hclaims.1, hclaims.2, hclaims.3, hclaims.4⟩, ?_, ?_, ?_, ?_⟩
    · rw [declaredTypes, foldl_append, ← declaredTypes, ← hs.types]
      rfl
    · simpa using hs.objects
    · simpa using hs.indexes
    · simpa using hs.references
  | table table =>
    simp only [addTable] at h
    obtain ⟨hfresh, h⟩ := of_refused h
    cases h
    refine ⟨⟨hclaims.1, hclaims.2, hclaims.3, hclaims.4⟩, ?_, fun name t => ?_, ?_, ?_⟩
    · simpa [declaredTypes] using hs.types
    · rw [getElem?_insert_of_notMem (not_or.mp hfresh).1, hs.objects]
      simp only [mem_append, mem_singleton, DurableCatalogEntry.table.injEq]
      constructor
      · rintro (⟨rfl, rfl⟩ | ⟨d, hd, rfl, rfl⟩)
        · exact ⟨table, .inr rfl, rfl, rfl⟩
        · exact ⟨d, .inl hd, rfl, rfl⟩
      · rintro ⟨d, hd | rfl, hname, ht⟩
        · exact .inr ⟨d, hd, hname, ht⟩
        · exact .inl ⟨hname, ht⟩
    · simpa using hs.indexes
    · simpa using hs.references
  | index table definition =>
    simp only [addIndex] at h
    obtain ⟨hfresh, h⟩ := of_refused h
    cases h
    refine ⟨⟨hclaims.1, hclaims.2, hclaims.3, hclaims.4⟩, ?_, ?_, fun name shape d => ?_, ?_⟩
    · simpa [declaredTypes] using hs.types
    · simpa using hs.objects
    · rw [getElem?_insert_insert]
      simp only [mem_append, mem_singleton, DurableCatalogEntry.index.injEq]
      split
      · next heq =>
        obtain ⟨rfl, rfl⟩ := heq
        have hnone : ¬(.index name d ∈ seen ∧ d.shapeKey = definition.shapeKey) := by
          intro hd
          refine hfresh (ExtTreeMap.mem_iff_isSome_getElem?.mpr ?_)
          rw [(hs.indexes _ _ d).mpr hd]
          rfl
        simp only [Option.some.injEq]
        exact ⟨fun hd => hd ▸ ⟨.inr ⟨trivial, rfl⟩, rfl⟩, fun ⟨hd, hshape⟩ =>
          hd.elim (fun hd => absurd ⟨hd, hshape⟩ hnone) fun hd => hd.2.symm⟩
      · next hne =>
        rw [hs.indexes]
        refine ⟨fun ⟨hd, hshape⟩ => ⟨.inl hd, hshape⟩, fun ⟨hd, hshape⟩ =>
          ⟨hd.resolve_right ?_, hshape⟩⟩
        rintro ⟨rfl, rfl⟩
        exact hne ⟨rfl, hshape.symm⟩
    · simpa using hs.references

end CatalogEntries

/-- All entries are collected, and the next identity is beyond theirs. -/
theorem loadCatalog_eq_ok [External] {header : DurableMeta} {entries : List DurableCatalogEntry}
    {catalog : Catalog} {s : CatalogEntries} (h : loadCatalog header entries = .ok (catalog, s)) :
    s.Claims entries ∧ s.Collects entries ∧ catalog = durableCatalog header entries ∧
      s.maxId < header.nextCatalogId ∧ s.checkIndexTables = .ok () := by
  obtain ⟨s', hs', h⟩ := of_bind h
  obtain ⟨hclaims, hcollects⟩ : s'.Claims entries ∧ s'.Collects entries := by
    have hempty : CatalogEntries.empty.Claims [] ∧ CatalogEntries.empty.Collects [] :=
      ⟨⟨by simp, by simp [CatalogEntries.empty], by simp, by simp⟩,
        ⟨rfl, by simp [CatalogEntries.empty], by simp [CatalogEntries.empty],
          by simp [CatalogEntries.empty]⟩⟩
    simpa using foldlM_seen (P := fun seen s => s.Claims seen ∧ s.Collects seen)
      (fun seen s entry s' hs hstep => hs.2.addEntry hs.1 hstep) hs' hempty
  obtain ⟨hbelow, h⟩ := of_refused h
  obtain ⟨catalog', hcatalog, -, -, h⟩ := of_bind₂ h
  obtain ⟨⟨⟩, htables, h⟩ := of_bind h
  cases h
  obtain ⟨-, hcatalog⟩ := of_refused hcatalog
  cases hcatalog
  refine ⟨hclaims, hcollects, ?_, UInt64.not_le.mp hbelow, htables⟩
  rw [durableCatalog, hcollects.types]

/-! ## Rows -/

/-- A table that has kept everything but its rows. -/
structure Table.Restored (t t' : Table) : Prop where
  name : t'.name = t.name
  id : t'.id = t.id
  schema : t'.schema = t.schema
  rowType : t'.rowType = t.rowType
  primaryKey : t'.primaryKey = t.primaryKey

/-- A stored row and the row of a table that the decoder reads. -/
structure Decodes (catalog : Catalog) (table : Table) (stored : DurableRow) (row : Row) : Prop where
  id : row.id = stored.rowId
  fields : decodeFields catalog table stored.bytes = .ok row.fields

/-- The stored rows of a table. -/
def rowsOf (id : UInt64) (rows : List DurableRow) : List DurableRow :=
  rows.filter fun row => row.tableId = id

/-- A table with the rows stored for it. Only an empty one has no cursor. -/
structure Table.Loads (catalog : Catalog) (rows : List DurableRow) (t t' : Table) : Prop where
  restored : t.Restored t'
  rows : Forall₂ (Decodes catalog t) (rowsOf t.id rows) t'.rows
  numbered : t'.nextRowId = 0 → t'.rows = []

variable {catalog : Catalog} {objects objects' : ExtTreeMap String Table} {rows : List DurableRow}

/-- The rows read so far. -/
def DecodedRows.Reads (catalog : Catalog) (objects : ExtTreeMap String Table)
    (seen : List DurableRow) (decoded : DecodedRows) : Prop :=
  ∀ (name : String) (table : Table), objects[name]? = some table →
    Forall₂ (Decodes catalog table) (rowsOf table.id seen) (decoded.rows[name]?.getD [])

theorem DecodedRows.Reads.decodeRow
    (hdistinct : ∀ (a b : String) (s t : Table), objects[a]? = some s → objects[b]? = some t →
      s.id = t.id → a = b) {seen : List DurableRow} {decoded decoded' : DecodedRows}
    {row : DurableRow} (hd : decoded.Reads catalog objects seen)
    (h : decodeRow catalog objects decoded row = .ok decoded') :
    decoded'.Reads catalog objects (seen ++ [row]) := by
  unfold UnionId.decodeRow at h
  split at h
  · cases h
  next name table hfind =>
  have htable : objects[name]? = some table :=
    ExtTreeMap.mem_toList_iff_getElem?_eq_some.mp (mem_of_find?_eq_some hfind)
  have hid : table.id = row.tableId := by simpa using find?_some hfind
  obtain ⟨-, h⟩ := of_refused h
  obtain ⟨fields, hfields, rfl⟩ := of_bind_pure h
  intro other table' htable'
  rw [rowsOf, filter_append, ExtTreeMap.getElem?_insert]
  by_cases hname : name = other
  · subst hname
    cases htable.symm.trans htable'
    rw [if_pos compare_self, Option.getD_some, filter_cons_of_pos (by simp [hid]), filter_nil]
    exact rel_append (hd name table htable) (.cons ⟨rfl, hfields⟩ .nil)
  · have hne : ¬row.tableId = table'.id := fun heq =>
      hname (hdistinct _ _ _ _ htable htable' (hid.trans heq))
    rw [if_neg (by simpa using hname), filter_cons_of_neg (by simpa using hne), filter_nil,
      append_nil]
    exact hd other table' htable'

theorem inferredNext_ne_zero {rows : List Row} (h : inferredNext rows = 0) : rows = [] := by
  unfold inferredNext saturatingSucc U64_LIMIT at h
  split at h
  · exact absurd (Nat.min_eq_zero_iff.mp h) (by simp)
  · next hlast => exact getLast?_eq_none_iff.mp hlast

theorem attachRows_eq_ok {name : String} {rows : List Row}
    (h : attachRows objects name rows = .ok objects') : ∃ t', objects' = objects.insert name t' ∧
      ∃ t, objects[name]? = some t ∧ t.Restored t' ∧ t'.rows = rows ∧
        (t'.nextRowId = 0 → rows = []) := by
  unfold attachRows at h
  split at h
  · cases h
  next t ht =>
  split at h
  · cases h
    exact ⟨_, rfl, t, ht, ⟨rfl, rfl, rfl, rfl, rfl⟩, rfl, inferredNext_ne_zero⟩
  · next hzero =>
    obtain ⟨-, h⟩ := of_refused h
    cases h
    exact ⟨_, rfl, t, ht, ⟨rfl, rfl, rfl, rfl, rfl⟩, rfl, fun h => absurd h hzero⟩

/-- Every table has the rows that are stored for it. -/
theorem loadRows_eq_ok
    (hdistinct : ∀ (a b : String) (s t : Table), objects[a]? = some s → objects[b]? = some t →
      s.id = t.id → a = b)
    (hempty : ∀ (name : String) (t : Table), objects[name]? = some t → t.rows = [])
    (h : loadRows catalog objects rows = .ok objects') (name : String) :
    Option.Rel (Table.Loads catalog (sortRows rows)) objects[name]? objects'[name]? := by
  obtain ⟨decoded, hdecoded, h⟩ := of_bind h
  have hreads : decoded.Reads catalog objects (sortRows rows) := by
    have hnone : DecodedRows.Reads catalog objects [] ⟨∅, ∅⟩ := fun _ _ _ => by simp [rowsOf]
    simpa using foldlM_seen (P := fun seen decoded => decoded.Reads catalog objects seen)
      (fun seen decoded row decoded' hd hstep => hd.decodeRow hdistinct hstep) hdecoded hnone
  obtain ⟨hkept, hset⟩ := foldlM_insert (R := fun t rows t' => ∃ t₀, t = some t₀ ∧
    t₀.Restored t' ∧ t'.rows = rows ∧ (t'.nextRowId = 0 → rows = []))
    (fun _ _ _ hstep => attachRows_eq_ok hstep) ExtTreeMap.distinct_keys_toList h
  cases hrows : decoded.rows[name]? with
  | some rows =>
    obtain ⟨t', ht', t, ht, hrestored, hrows', hnumbered⟩ :=
      hset (name, rows) (ExtTreeMap.mem_toList_iff_getElem?_eq_some.mpr hrows)
    rw [ht, ht']
    refine .some ⟨hrestored, ?_, hrows' ▸ hnumbered⟩
    simpa [hrows, hrows'] using hreads name t ht
  | none =>
    rw [hkept name fun e he hname => ?_]
    · cases ht : objects[name]? with
      | none => exact .none
      | some t =>
        refine .some ⟨⟨rfl, rfl, rfl, rfl, rfl⟩, ?_, fun _ => hempty name t ht⟩
        simpa [hrows, hempty name t ht] using hreads name t ht
    · rw [← hname, ExtTreeMap.mem_toList_iff_getElem?_eq_some.mp he] at hrows
      cases hrows

end UnionId
