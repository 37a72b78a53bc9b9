import UnionId.Db.Durable
import UnionId.Engine.Receipts
import UnionId.Lib.Json

/-!
# What serde writes

The JSON that the derived serializers write for values, types, catalog entries and
receipts: which arrays and objects stand around what. Text of scalars is left abstract
(`Payload`), so a tree says exactly how deep a document is nested. `QueryResponse.detail`
contributes the members of the parts it stands for.

## Main results

* `depth_receipt_le_iff`, `DurableCatalogEntry.depth_le_iff` — the depth of a record by the
  levels of the values and types in it.
-/
namespace UnionId

open Lib Scripts

/-- The scalars of a document, before they are rendered. -/
inductive Payload where
  | null
  | bool (value : Bool)
  | int (value : ℤ)
  | float (bits : UInt64)
  | text (value : String)
  | message (value : Message)
  | statement (kind : StatementKind)
  | constraint (kind : ConstraintKind)
  | uuid (value : Uuid)
  | date (value : Date)
  | timestamp (value : Timestamp)
  | duration (value : Duration)
  | bytes (value : Bytes)

abbrev Doc := Json Payload

namespace Serde

def text (s : String) : Doc := .scalar (.text s)
def nat (n : ℕ) : Doc := .scalar (.int n)
def u64 (n : UInt64) : Doc := nat n.toNat

/-- An adjacently tagged enum: `tag = "kind", content = "value"`. -/
def adjacent (kind : String) (value : Doc) : Doc := .object [("kind", text kind), ("value", value)]

/-- A member that is skipped when it is absent. -/
def skipNone {α : Type} (key : String) (toJson : α → Doc) : Option α → List (String × Doc)
  | none => []
  | some a => [(key, toJson a)]

def skipEmpty {α : Type} (key : String) (toJson : α → Doc) (items : List α) :
    List (String × Doc) :=
  if items.isEmpty then [] else [(key, .array (items.map toJson))]

def orNull {α : Type} (toJson : α → Doc) : Option α → Doc
  | none => .scalar .null
  | some a => toJson a

end Serde

open Serde

/-! ## Values -/

mutual

def Value.toJson : Value → Doc
  | .int v => adjacent "Int" (.scalar (.int v.toInt))
  | .float v => adjacent "Float" (.scalar (.float v))
  | .bool v => adjacent "Bool" (.scalar (.bool v))
  | .text v => adjacent "Text" (Serde.text v)
  | .uuid v => adjacent "Uuid" (.scalar (.uuid v))
  | .date v => adjacent "Date" (.scalar (.date v))
  | .timestamp v => adjacent "Timestamp" (.scalar (.timestamp v))
  | .duration v => adjacent "Duration" (.scalar (.duration v))
  | .decimal v => adjacent "Decimal"
      (.object [("coefficient", .scalar (.int v.coefficient)), ("scale", nat v.scale)])
  | .bytes v => adjacent "Bytes" (.scalar (.bytes v))
  | .null => .object [("kind", Serde.text "Null")]
  | .enum variant args id => adjacent "Enum"
      (.object [("variant", Serde.text variant), ("args", .array (itemsToJson args)),
        ("id", u64 id)])
  | .record fields => adjacent "Record" (.object (membersToJson fields))
  | .tuple items => adjacent "Tuple" (.array (itemsToJson items))
  | .list items => adjacent "List" (.array (itemsToJson items))
  | .map entries => adjacent "Map" (.object (membersToJson entries))
  | .option none => adjacent "Option" (.scalar .null)
  | .option (some v) => adjacent "Option" v.toJson
  | .named typeId v => adjacent "Named" (.object [("type_id", u64 typeId), ("value", v.toJson)])

def itemsToJson : List Value → List Doc
  | [] => []
  | v :: vs => v.toJson :: itemsToJson vs

def membersToJson : List (String × Value) → List (String × Doc)
  | [] => []
  | (key, v) :: rest => (key, v.toJson) :: membersToJson rest

end

mutual

/-- The arrays and objects that the JSON of a value nests. -/
def Value.levels : Value → ℕ
  | .decimal _ => 2
  | .enum _ args _ => itemsLevels args + 3
  | .record fields => membersLevels fields + 2
  | .tuple items => itemsLevels items + 2
  | .list items => itemsLevels items + 2
  | .map entries => membersLevels entries + 2
  | .option (some v) => v.levels + 1
  | .named _ v => v.levels + 2
  | _ => 1

def itemsLevels : List Value → ℕ
  | [] => 0
  | v :: vs => max v.levels (itemsLevels vs)

def membersLevels : List (String × Value) → ℕ
  | [] => 0
  | (_, v) :: rest => max v.levels (membersLevels rest)

end

@[simp] theorem Serde.depth_adjacent (kind : String) (value : Doc) :
    (adjacent kind value).depth = value.depth + 1 := by
  simp [adjacent, Serde.text]

mutual

theorem Value.depth_toJson : ∀ v : Value, v.toJson.depth = v.levels
  | .int _ | .float _ | .bool _ | .uuid _ | .date _ | .timestamp _ | .duration _ | .bytes _
  | .option none => by simp [Value.toJson, Value.levels]
  | .text _ => by simp [Value.toJson, Value.levels, Serde.text]
  | .decimal _ => by simp [Value.toJson, Value.levels, nat]
  | .null => by simp [Value.toJson, Value.levels, Serde.text]
  | .enum _ args _ => by
    simp [Value.toJson, Value.levels, Serde.text, u64, nat, depth_itemsToJson args]
  | .record fields => by simp [Value.toJson, Value.levels, depth_membersToJson fields]
  | .tuple items | .list items => by simp [Value.toJson, Value.levels, depth_itemsToJson items]
  | .map entries => by simp [Value.toJson, Value.levels, depth_membersToJson entries]
  | .option (some v) => by simp [Value.toJson, Value.levels, v.depth_toJson]
  | .named _ v => by simp [Value.toJson, Value.levels, u64, nat, v.depth_toJson]

theorem depth_itemsToJson : ∀ vs : List Value, Json.depthItems (itemsToJson vs) = itemsLevels vs
  | [] => by simp [itemsToJson, itemsLevels]
  | v :: vs => by
    simp only [itemsToJson, Json.depthItems_cons, itemsLevels, v.depth_toJson,
      depth_itemsToJson vs]

theorem depth_membersToJson :
    ∀ ms : List (String × Value), Json.depthMembers (membersToJson ms) = membersLevels ms
  | [] => by simp [membersToJson, membersLevels]
  | (_, v) :: rest => by
    simp only [membersToJson, Json.depthMembers_cons, membersLevels, v.depth_toJson,
      depth_membersToJson rest]

end

/-! ## Types -/

mutual

def ScalarType.toJson : ScalarType → Doc
  | .int => text "Int"
  | .float => text "Float"
  | .bool => text "Bool"
  | .text => Serde.text "Text"
  | .uuid => text "Uuid"
  | .date => text "Date"
  | .timestamp => text "Timestamp"
  | .duration => text "Duration"
  | .decimal precision scale =>
    .object [("Decimal", .object [("precision", nat precision), ("scale", nat scale)])]
  | .bytes => text "Bytes"
  | .enum variants =>
    .object [("Enum", .object [("variants", .array (variantsToJson variants))])]
  | .record columns => .object [("Record", .array (columnsToJson columns))]
  | .tuple items => .object [("Tuple", .array (typesToJson items))]
  | .option inner => .object [("Option", inner.toJson)]
  | .list inner => .object [("List", inner.toJson)]
  | .map inner => .object [("Map", inner.toJson)]
  | .named name => .object [("Named", Serde.text name)]
  | .ref id => .object [("Ref", u64 id)]

def typesToJson : List ScalarType → List Doc
  | [] => []
  | ty :: rest => ty.toJson :: typesToJson rest

def variantsToJson : List (VariantOf ScalarType) → List Doc
  | [] => []
  | ⟨name, args, id⟩ :: rest =>
    .object [("name", Serde.text name), ("args", .array (typesToJson args)), ("id", u64 id)] ::
      variantsToJson rest

def columnsToJson : List (ColumnOf ScalarType) → List Doc
  | [] => []
  | ⟨name, ty, default, id⟩ :: rest =>
    .object ([("name", Serde.text name), ("ty", ty.toJson)] ++
      skipNone "default" Value.toJson default ++ [("id", u64 id)]) :: columnsToJson rest

end

mutual

/-- The arrays and objects that the JSON of a type nests, the defaults of its fields
included. -/
def ScalarType.levels : ScalarType → ℕ
  | .decimal _ _ => 2
  | .enum variants => variantsLevels variants + 3
  | .record columns => columnsLevels columns + 2
  | .tuple items => typesLevels items + 2
  | .option inner => inner.levels + 1
  | .list inner => inner.levels + 1
  | .map inner => inner.levels + 1
  | .named _ => 1
  | .ref _ => 1
  | _ => 0

def typesLevels : List ScalarType → ℕ
  | [] => 0
  | ty :: rest => max ty.levels (typesLevels rest)

def variantsLevels : List (VariantOf ScalarType) → ℕ
  | [] => 0
  | ⟨_, args, _⟩ :: rest => max (typesLevels args + 2) (variantsLevels rest)

def columnsLevels : List (ColumnOf ScalarType) → ℕ
  | [] => 0
  | ⟨_, ty, default, _⟩ :: rest =>
    max (max ty.levels (default.elim 0 Value.levels) + 1) (columnsLevels rest)

end

mutual

theorem ScalarType.depth_toJson : ∀ ty : ScalarType, ty.toJson.depth = ty.levels
  | .int | .float | .bool | .uuid | .date | .timestamp | .duration | .bytes => by
    simp [ScalarType.toJson, ScalarType.levels, Serde.text]
  | .text => by simp [ScalarType.toJson, ScalarType.levels, Serde.text]
  | .decimal _ _ => by simp [ScalarType.toJson, ScalarType.levels, nat]
  | .enum variants => by
    simp [ScalarType.toJson, ScalarType.levels, depth_variantsToJson variants]
  | .record columns => by simp [ScalarType.toJson, ScalarType.levels, depth_columnsToJson columns]
  | .tuple items => by simp [ScalarType.toJson, ScalarType.levels, depth_typesToJson items]
  | .option inner | .list inner | .map inner => by
    simp [ScalarType.toJson, ScalarType.levels, inner.depth_toJson]
  | .named _ => by simp [ScalarType.toJson, ScalarType.levels, Serde.text]
  | .ref _ => by simp [ScalarType.toJson, ScalarType.levels, u64, nat]

theorem depth_typesToJson :
    ∀ tys : List ScalarType, Json.depthItems (typesToJson tys) = typesLevels tys
  | [] => by simp [typesToJson, typesLevels]
  | ty :: rest => by
    simp only [typesToJson, Json.depthItems_cons, typesLevels, ty.depth_toJson,
      depth_typesToJson rest]

theorem depth_variantsToJson : ∀ variants : List (VariantOf ScalarType),
    Json.depthItems (variantsToJson variants) = variantsLevels variants
  | [] => by simp [variantsToJson, variantsLevels]
  | ⟨_, args, _⟩ :: rest => by
    simp [variantsToJson, variantsLevels, Serde.text, u64, nat, depth_typesToJson args,
      depth_variantsToJson rest]

theorem depth_columnsToJson : ∀ columns : List (ColumnOf ScalarType),
    Json.depthItems (columnsToJson columns) = columnsLevels columns
  | [] => by simp [columnsToJson, columnsLevels]
  | ⟨_, ty, none, _⟩ :: rest => by
    simp [columnsToJson, columnsLevels, Serde.text, u64, nat, skipNone, ty.depth_toJson,
      depth_columnsToJson rest]
  | ⟨_, ty, some v, _⟩ :: rest => by
    simp [columnsToJson, columnsLevels, Serde.text, u64, nat, skipNone, ty.depth_toJson,
      v.depth_toJson, depth_columnsToJson rest]

end

/-! ## Catalog entries -/

def Sequence.toJson (s : Sequence) : Doc :=
  .object [("id", u64 s.id), ("name", text s.name), ("start", .scalar (.int s.start.toInt)),
    ("next", orNull (fun n => .scalar (.int n.toInt)) s.next)]

def ReferenceMode.toJson : ReferenceMode → Doc
  | .exact => text "exact"
  | .optional => text "optional"

def ReferenceTarget.toJson : ReferenceTarget → Doc
  | .primaryKey => .object [("kind", text "primary_key")]
  | .uniqueIndex indexId => .object [("kind", text "unique_index"), ("index_id", u64 indexId)]

def ReferenceComponent.toJson (c : ReferenceComponent) : Doc :=
  .object [("column", text c.column), ("field_path", .array (c.fieldPath.map u64)),
    ("target_column", text c.targetColumn),
    ("target_field_path", .array (c.targetFieldPath.map u64)), ("mode", c.mode.toJson),
    ("target_type", c.targetType.toJson)]

def ReferenceDefinition.toJson (d : ReferenceDefinition) : Doc :=
  .object [("id", u64 d.id), ("table_id", u64 d.tableId), ("target_table_id", u64 d.targetTableId),
    ("target", d.target.toJson),
    ("components", .array (d.components.map ReferenceComponent.toJson))]

def TypeDefinition.toJson (d : TypeDefinition) : Doc :=
  .object [("id", u64 d.id), ("name", text d.name), ("ty", d.ty.toJson)]

def BoundGeneratedDefault.toJson : BoundGeneratedDefault → Doc
  | .next sequence => .object [("Next", u64 sequence)]
  | .uuidV7 => text "UuidV7"
  | .now => text "Now"

def DurableTable.toJson (t : DurableTable) : Doc :=
  .object ([("id", u64 t.id), ("name", text t.name), ("schema", .array (columnsToJson t.schema)),
    ("row_type", orNull u64 t.rowType), ("primary_key", orNull text t.primaryKey),
    ("next_row_id", nat t.nextRowId)] ++
    if t.generatedDefaults.isEmpty then [] else
      [("generated_defaults", .object (t.generatedDefaults.toList.map fun p =>
        (toString p.1, p.2.toJson)))])

def IndexComponentDefinition.toJson (c : IndexComponentDefinition) : Doc :=
  .object ([("column", text c.column), ("field_path", .array (c.fieldPath.map u64))] ++
    if c.descending then [("descending", .scalar (.bool true))] else [])

/-- An internally tagged enum: `tag = "kind"`. -/
def IndexPredicateAtom.toJson : IndexPredicateAtom → Doc
  | .equal column fieldPath valueType value =>
    .object [("kind", text "equal"), ("column", text column),
      ("field_path", .array (fieldPath.map u64)), ("value_type", valueType.toJson),
      ("value", value.toJson)]
  | .isNone column fieldPath =>
    .object [("kind", text "is_none"), ("column", text column),
      ("field_path", .array (fieldPath.map u64))]
  | .isSome column fieldPath =>
    .object [("kind", text "is_some"), ("column", text column),
      ("field_path", .array (fieldPath.map u64))]

def IndexPredicate.toJson (p : IndexPredicate) : Doc :=
  .object [("atoms", .array (p.atoms.map IndexPredicateAtom.toJson))]

def IndexKind.toJson : IndexKind → Doc
  | .ordinary => text "ordinary"
  | .unique => text "unique"

def CATALOG_CODEC_VERSION : UInt16 := 2
def PRODUCTION_CATALOG_CODEC_VERSION : UInt16 := 4

/-- An index definition as the catalog codec of a version writes it: one column before
composite indexes, components since then. -/
def IndexDefinition.toJson (version : UInt16) (d : IndexDefinition) : Doc :=
  .object ([("id", u64 d.id), ("table_id", u64 d.tableId)] ++
    (if version < PRODUCTION_CATALOG_CODEC_VERSION then
      match d.effectiveComponents with
      | [c] => [("column", text c.column), ("field_path", .array (c.fieldPath.map u64))]
      | _ => []
    else [("components", .array (d.effectiveComponents.map IndexComponentDefinition.toJson))]) ++
    (if version < CATALOG_CODEC_VERSION ∧ d.kind = .ordinary then []
      else [("kind", d.kind.toJson)]) ++
    skipNone "predicate" IndexPredicate.toJson d.predicate)

def DurableCatalogEntry.toJson (version : UInt16) : DurableCatalogEntry → Doc
  | .sequence s => adjacent "Sequence" s.toJson
  | .reference d => adjacent "Reference" d.toJson
  | .type d => adjacent "Type" d.toJson
  | .table t => adjacent "Table" t.toJson
  | .index name d => adjacent "Index"
      (.object [("table", text name), ("definition", d.toJson version)])

/-! ## Receipts -/

/-- The members that the other parts of a response contribute. -/
class ResponseDetail (Detail : Type) where
  members : Detail → List (String × Doc)

def Error.toJson (e : Error) : Doc :=
  .object ([("code", .scalar (.message (.code e.code))),
    ("message", .scalar (.message e.message))] ++
    skipNone "constraint" (fun kind => .scalar (.constraint kind)) e.constraint)

def SchemaInfo.toJson (s : SchemaInfo) : Doc :=
  .object [("revision", nat s.revision), ("hash", text s.hash)]

def StatementSummary.toJson (s : StatementSummary) : Doc :=
  .object ([("index", nat s.index), ("kind", .scalar (.statement s.kind))] ++
    skipNone "affected_rows" nat s.affectedRows)

variable {Detail : Type} [ResponseDetail Detail]

/-- Without other parts a response still has an empty list of columns. -/
def Scripts.QueryResponse.toJson (r : Scripts.QueryResponse Detail) : Doc :=
  .object ([("ok", .scalar (.bool r.ok)), ("message", .scalar (.message r.message)),
    ("rows", .array (r.rows.map fun row => .object (membersToJson row)))] ++
    skipNone "error" Error.toJson r.error ++
    skipEmpty "warnings" (fun w => .scalar (.message w)) r.warnings ++
    skipNone "schema" SchemaInfo.toJson r.schema ++
    skipNone "affected_rows" nat r.affectedRows ++
    skipEmpty "statements" StatementSummary.toJson r.statements ++
    match r.detail with
    | some detail => ResponseDetail.members detail
    | none => [("columns", .array [])])

def IdempotencyReceipt.toJson (r : IdempotencyReceipt Detail) : Doc :=
  .object [("digest", text r.digest), ("committed_sequence", nat r.committedSequence),
    ("completed_at_unix_ms", nat r.completedAtUnixMs),
    ("response", Scripts.QueryResponse.toJson r.response)]

/-! ## The depth of the records -/

/-- The values that a response returns leave room for what stands around them in a receipt. -/
@[mk_iff] structure Scripts.QueryResponse.Fits (limit : ℕ)
    (r : Scripts.QueryResponse Detail) : Prop where
  rows : ∀ row ∈ r.rows, membersLevels row + 4 ≤ limit
  detail : ∀ d ∈ r.detail, Json.depthMembers (ResponseDetail.members d) + 2 ≤ limit

def IndexPredicateAtom.levels : IndexPredicateAtom → ℕ
  | .equal _ _ valueType value => max valueType.levels value.levels
  | _ => 0

/-- The types, defaults and literals of an entry leave room for what stands around them. -/
def DurableCatalogEntry.Fits (limit : ℕ) : DurableCatalogEntry → Prop
  | .sequence _ => True
  | .reference d => ∀ c ∈ d.components, c.targetType.levels + 4 ≤ limit
  | .type d => d.ty.levels + 2 ≤ limit
  | .table t => columnsLevels t.schema + 3 ≤ limit
  | .index _ d => ∀ p ∈ d.predicate, ∀ atom ∈ p.atoms, atom.levels + 6 ≤ limit

section Depth
variable {n limit : ℕ} {α : Type} {key : String} {toJson : α → Doc}

theorem depth_skipNone_le_iff {value : Option α} :
    Json.depthMembers (skipNone key toJson value) ≤ n ↔ ∀ a ∈ value, (toJson a).depth ≤ n := by
  cases value <;> simp [skipNone]

theorem depth_array_map_le_iff {items : List α} :
    (Json.array (items.map toJson)).depth ≤ n + 1 ↔ ∀ a ∈ items, (toJson a).depth ≤ n := by
  simp [Json.depthItems_le_iff]

theorem depth_skipEmpty_le_iff {items : List α} :
    Json.depthMembers (skipEmpty key toJson items) ≤ n + 1 ↔
      ∀ a ∈ items, (toJson a).depth ≤ n := by
  unfold skipEmpty
  split
  · rename_i hempty
    simp [List.isEmpty_iff.mp hempty]
  · simp [Json.depthItems_le_iff]

theorem Scripts.QueryResponse.depth_le_iff {r : Scripts.QueryResponse Detail} :
    (Scripts.QueryResponse.toJson r).depth ≤ n + 3 ↔ r.Fits (n + 4) := by
  have herror : Json.depthMembers (skipNone "error" Error.toJson r.error) ≤ n + 2 :=
    depth_skipNone_le_iff.mpr fun e _ => by
      cases h : e.constraint <;> simp [Error.toJson, skipNone, h]
  have hwarnings : Json.depthMembers (skipEmpty "warnings"
      (fun w => .scalar (.message w)) r.warnings) ≤ n + 2 :=
    depth_skipEmpty_le_iff.mpr fun w _ => by simp
  have hschema : Json.depthMembers (skipNone "schema" SchemaInfo.toJson r.schema) ≤ n + 2 :=
    depth_skipNone_le_iff.mpr fun s _ => by simp [SchemaInfo.toJson, text, nat]
  have haffected : Json.depthMembers (skipNone "affected_rows" nat r.affectedRows) ≤ n + 2 :=
    depth_skipNone_le_iff.mpr fun a _ => by simp [nat]
  have hstatements : Json.depthMembers (skipEmpty "statements" StatementSummary.toJson
      r.statements) ≤ n + 2 :=
    depth_skipEmpty_le_iff.mpr fun s _ => by
      cases h : s.affectedRows <;> simp [StatementSummary.toJson, skipNone, nat, h]
  have hrows : (Json.array (r.rows.map fun row => .object (membersToJson row))).depth ≤ n + 2 ↔
      ∀ row ∈ r.rows, membersLevels row + 4 ≤ n + 4 := by
    rw [depth_array_map_le_iff]
    simp [depth_membersToJson]
  have hdetail : Json.depthMembers (match r.detail with
      | some detail => ResponseDetail.members detail
      | none => [("columns", .array [])]) ≤ n + 2 ↔
      ∀ d ∈ r.detail, Json.depthMembers (ResponseDetail.members d) + 2 ≤ n + 4 := by
    cases r.detail <;> simp
  simp only [Scripts.QueryResponse.fits_iff, Scripts.QueryResponse.toJson, Json.depth_object,
    Json.depthMembers_append, Json.depthMembers_cons, Json.depthMembers_nil, Json.depth_scalar,
    Nat.add_le_add_iff_right, max_le_iff, Nat.zero_le, true_and, and_true, herror, hwarnings,
    hschema, haffected, hstatements, hrows, hdetail]

/-- **The depth of a receipt** is decided by the values that its response returns. -/
theorem depth_receipt_le_iff {r : IdempotencyReceipt Detail} (hlimit : 4 ≤ limit) :
    (IdempotencyReceipt.toJson r).depth ≤ limit ↔ r.response.Fits limit := by
  obtain ⟨n, rfl⟩ := Nat.exists_eq_add_of_le' hlimit
  rw [← Scripts.QueryResponse.depth_le_iff]
  simp [IdempotencyReceipt.toJson, text, nat]

theorem depth_targets_le_iff {components : List ReferenceComponent} :
    (Json.array (components.map ReferenceComponent.toJson)).depth ≤ n + 5 ↔
      ∀ c ∈ components, c.targetType.levels ≤ n + 3 := by
  rw [depth_array_map_le_iff]
  refine forall₂_congr fun c _ => ?_
  have hpath : ∀ path : List UInt64, Json.depthItems (path.map u64) ≤ n + 2 := fun path =>
    Json.depthItems_le_iff.mpr (by simp [u64, nat])
  have hmode : c.mode.toJson.depth = 0 := by cases c.mode <;> rfl
  have h₁ := hpath c.fieldPath
  have h₂ := hpath c.targetFieldPath
  simp [ReferenceComponent.toJson, text, hmode, c.targetType.depth_toJson]
  omega

theorem depth_atoms_le_iff {p : IndexPredicate} :
    p.toJson.depth ≤ n + 4 ↔ ∀ atom ∈ p.atoms, atom.levels ≤ n + 1 := by
  have hpath : ∀ path : List UInt64, Json.depthItems (path.map u64) ≤ n := fun path =>
    Json.depthItems_le_iff.mpr (by simp [u64, nat])
  have hatoms : p.toJson.depth ≤ n + 4 ↔
      ∀ atom ∈ p.atoms, atom.toJson.depth ≤ n + 2 := by
    simp [IndexPredicate.toJson, Json.depthItems_le_iff]
  rw [hatoms]
  refine forall₂_congr fun atom _ => ?_
  cases atom with
  | equal column path ty v =>
    have := hpath path
    simp [IndexPredicateAtom.toJson, IndexPredicateAtom.levels, text, ty.depth_toJson,
      v.depth_toJson]
    omega
  | _ column path =>
    have := hpath path
    simp [IndexPredicateAtom.toJson, IndexPredicateAtom.levels, text]
    omega

theorem IndexDefinition.depth_le_iff {d : IndexDefinition} (version : UInt16) :
    (d.toJson version).depth ≤ n + 5 ↔ ∀ p ∈ d.predicate, p.toJson.depth ≤ n + 4 := by
  have hpath : ∀ path : List UInt64, Json.depthItems (path.map u64) ≤ n := fun path =>
    Json.depthItems_le_iff.mpr (by simp [u64, nat])
  have hcomponent : ∀ c : IndexComponentDefinition, c.toJson.depth ≤ n + 2 := fun c => by
    have := hpath c.fieldPath
    cases h : c.descending <;> simp [IndexComponentDefinition.toJson, text, h] <;> omega
  have hcomponents : Json.depthMembers (if version < PRODUCTION_CATALOG_CODEC_VERSION then
      match d.effectiveComponents with
      | [c] => [("column", text c.column), ("field_path", .array (c.fieldPath.map u64))]
      | _ => []
    else [("components", .array (d.effectiveComponents.map IndexComponentDefinition.toJson))]) ≤
      n + 4 := by
    split
    · split
      · rename_i c _
        have := hpath c.fieldPath
        simp [text]
        omega
      · simp
    · have := depth_array_map_le_iff.mpr fun c (_ : c ∈ d.effectiveComponents) => hcomponent c
      simp only [Json.depthMembers_cons, Json.depthMembers_nil]
      omega
  have hkind : Json.depthMembers (if version < CATALOG_CODEC_VERSION ∧ d.kind = .ordinary then []
      else [("kind", d.kind.toJson)]) ≤ n + 4 := by
    have hscalar : d.kind.toJson.depth = 0 := by cases d.kind <;> rfl
    split <;> simp [hscalar]
  simp only [IndexDefinition.toJson, Json.depth_object, Json.depthMembers_append,
    Json.depthMembers_cons, Json.depthMembers_nil, Json.depth_scalar, Nat.add_le_add_iff_right,
    u64, nat, max_le_iff, Nat.zero_le, true_and, hcomponents, hkind, depth_skipNone_le_iff]

/-- **The depth of a catalog entry** is decided by the types, defaults and literals in it. -/
theorem DurableCatalogEntry.depth_le_iff {entry : DurableCatalogEntry} (version : UInt16)
    (hlimit : 7 ≤ limit) : (entry.toJson version).depth ≤ limit ↔ entry.Fits limit := by
  obtain ⟨n, rfl⟩ := Nat.exists_eq_add_of_le' hlimit
  cases entry with
  | sequence s =>
    cases h : s.next <;>
      simp [DurableCatalogEntry.toJson, Fits, Sequence.toJson, orNull, u64, nat, text, h]
  | reference d =>
    have htarget : d.target.toJson.depth ≤ n + 5 := by
      cases d.target <;> simp [ReferenceTarget.toJson, text, u64, nat]
    have hcomponents : (Json.array (d.components.map ReferenceComponent.toJson)).depth ≤ n + 5 ↔
        ∀ c ∈ d.components, c.targetType.levels + 4 ≤ n + 7 :=
      depth_targets_le_iff.trans (forall₂_congr fun c _ => by omega)
    simp only [DurableCatalogEntry.toJson, Fits, ReferenceDefinition.toJson, u64, nat,
      Serde.depth_adjacent, Json.depth_object, Json.depthMembers_cons, Json.depthMembers_nil,
      Json.depth_scalar, Nat.add_le_add_iff_right, max_le_iff, Nat.zero_le, true_and, and_true,
      htarget, hcomponents]
  | type d => simp [DurableCatalogEntry.toJson, Fits, TypeDefinition.toJson, u64, nat, text,
      d.ty.depth_toJson]
  | table t =>
    have hgenerated : Json.depthMembers (if t.generatedDefaults.isEmpty then [] else
        [("generated_defaults", .object (t.generatedDefaults.toList.map fun p =>
          (toString p.1, p.2.toJson)))]) ≤ n + 5 := by
      have hdefault : ∀ g : BoundGeneratedDefault, g.toJson.depth ≤ n + 4 := fun g => by
        cases g <;> simp [BoundGeneratedDefault.toJson, u64, nat, text]
      split
      · simp
      · simp only [Json.depthMembers_cons, Json.depthMembers_nil, Json.depth_object, max_le_iff,
          Nat.zero_le, and_true, Nat.add_le_add_iff_right]
        exact Json.depthMembers_le_iff.mpr fun m hm => by
          obtain ⟨p, -, rfl⟩ := List.mem_map.mp hm
          exact hdefault p.2
    have hkey : (orNull text t.primaryKey).depth = 0 := by cases t.primaryKey <;> rfl
    have hrow : (orNull u64 t.rowType).depth = 0 := by cases t.rowType <;> rfl
    simp only [DurableCatalogEntry.toJson, Fits, DurableTable.toJson, u64, nat, text,
      Serde.depth_adjacent, Json.depth_object, Json.depth_array, Json.depthMembers_append,
      Json.depthMembers_cons, Json.depthMembers_nil, Json.depth_scalar, Nat.add_le_add_iff_right,
      max_le_iff, Nat.zero_le, true_and, and_true, hgenerated, hkey, hrow, depth_columnsToJson]
  | index name d =>
    have hdepth : (DurableCatalogEntry.toJson version (.index name d)).depth ≤ n + 7 ↔
        (d.toJson version).depth ≤ n + 5 := by
      simp [DurableCatalogEntry.toJson, text]
    rw [hdepth, d.depth_le_iff version]
    refine forall₂_congr fun p _ => depth_atoms_le_iff.trans (forall₂_congr fun atom _ => ?_)
    omega

end Depth

end UnionId
