import UnionId.Lib.Wire
import UnionId.Model.Typing

/-!
# Declaring types

`define` registers a named type and `resolve` binds a parsed type: names become
stable references, and every field and variant gets an identity of its own. A
registered catalog must be finite: each reference is known, named types recur only
through themselves, and each has a value.
-/
namespace UnionId

open Lib Std List

namespace Catalog

/-- The refusal to hand out another identity. -/
def idsExhausted : Error := { code := .E_SCHEMA, message := "catalog ID space exhausted" }

/-- Hand out the next identity. -/
def allocateId : StateT UInt64 Result UInt64 := fun next =>
  if next.toNat + 1 < 2 ^ 64 then .ok (next, next + 1) else .error idsExhausted

/-- Identities continue where a stored catalog left off. -/
def restoreNextId (catalog : Catalog) (nextId : UInt64) : Result Catalog :=
  if nextId = 0 then fail .E_STORAGE "catalog next ID must be positive"
  else pure { catalog with nextId }

/-- Hand out an identity of a catalog. -/
def allocate (catalog : Catalog) : Result (UInt64 × Catalog) := do
  let (id, nextId) ← allocateId catalog.nextId
  pure (id, { catalog with nextId })

/-! ## Resolving parsed types -/

section Resolve
variable (resolve : ScalarType → StateT UInt64 Result ScalarType)

def resolveItems : List ScalarType → StateT UInt64 Result (List ScalarType)
  | [] => pure []
  | ty :: types => do
    let ty ← resolve ty
    let types ← resolveItems types
    pure (ty :: types)

/-- Each field gets its identity after its type; `seen` holds the names so far. -/
def resolveColumns : List String → List Column → StateT UInt64 Result (List Column)
  | _, [] => pure []
  | seen, column :: columns =>
    if column.name ∈ seen then
      throw { code := .E_SCHEMA, message := ("duplicate field '" ++ column.name ++ "'" : String) }
    else do
      let ty ← resolve column.ty
      let id ← allocateId
      let columns ← resolveColumns (column.name :: seen) columns
      pure ({ column with ty, id } :: columns)

/-- Each variant gets its identity after its arguments. -/
def resolveVariants : List String → List EnumVariantDef → StateT UInt64 Result (List EnumVariantDef)
  | _, [] => pure []
  | seen, variant :: variants =>
    if variant.name ∈ seen then
      throw { code := .E_SCHEMA,
              message := ("duplicate variant '" ++ variant.name ++ "'" : String) }
    else do
      let args ← resolveItems resolve variant.args
      let id ← allocateId
      let variants ← resolveVariants (variant.name :: seen) variants
      pure ({ variant with args, id } :: variants)

end Resolve

/-- Bind names and hand out identities, at the remaining nesting depth. -/
def resolveInner (types : ExtTreeMap String TypeDefinition) :
    ℕ → ScalarType → StateT UInt64 Result ScalarType
  | 0, _ => throw depthError
  | n + 1, ty =>
    match ty with
    | .decimal precision scale => do
      validateDecimalType precision scale
      pure (.decimal precision scale)
    | .named name =>
      match types[name]? with
      | some definition => pure (.ref definition.id)
      | none => throw { code := .E_SCHEMA, message :=
          ("unknown type '" ++ name ++ "'; declare other referenced types first" : String) }
    | .record columns => do
      let columns ← resolveColumns (resolveInner types n) [] columns
      pure (.record columns)
    | .enum variants => do
      let variants ← resolveVariants (resolveInner types n) [] variants
      pure (.enum variants)
    | .option inner => do
      let inner ← resolveInner types n inner
      pure (.option inner)
    | .list inner => do
      let inner ← resolveInner types n inner
      pure (.list inner)
    | .map inner => do
      let inner ← resolveInner types n inner
      pure (.map inner)
    | .tuple items => do
      let items ← resolveItems (resolveInner types n) items
      pure (.tuple items)
    | other => pure other

section Normalize
variable (catalog : Catalog) (normalize : ScalarType → Result ScalarType)

/-- The type of a field first, then its default at that type. -/
def normalizeColumn (n : ℕ) (column : Column) : Result Column := do
  let ty ← normalize column.ty
  match column.default with
  | none => pure { column with ty, default := none }
  | some value => do
    let value ← catalog.coerceInner n value ty
      ("default for field '" ++ column.name ++ "'" : String)
    pure { column with ty, default := some value }

def normalizeVariant (variant : EnumVariantDef) : Result EnumVariantDef := do
  let args ← variant.args.mapM normalize
  pure { variant with args }

end Normalize

/-- Bring all declared defaults into canonical form. -/
def normalizeDefaults (catalog : Catalog) : ℕ → ScalarType → Result ScalarType
  | 0, _ => .error depthError
  | n + 1, ty =>
    match ty with
    | .record columns => do
      let columns ← columns.mapM (normalizeColumn catalog (normalizeDefaults catalog n) n)
      pure (.record columns)
    | .enum variants => do
      let variants ← variants.mapM (normalizeVariant (normalizeDefaults catalog n))
      pure (.enum variants)
    | .tuple items => do
      let items ← items.mapM (normalizeDefaults catalog n)
      pure (.tuple items)
    | .option inner => do
      let inner ← normalizeDefaults catalog n inner
      pure (.option inner)
    | .list inner => do
      let inner ← normalizeDefaults catalog n inner
      pure (.list inner)
    | .map inner => do
      let inner ← normalizeDefaults catalog n inner
      pure (.map inner)
    | other => pure other

/-- Bind a parsed type, at the remaining nesting depth. -/
def resolve (catalog : Catalog) (n : ℕ) (ty : ScalarType) : Result (ScalarType × Catalog) := do
  let (ty, nextId) ← resolveInner catalog.types n ty catalog.nextId
  let catalog := { catalog with nextId }
  let ty ← catalog.normalizeDefaults n ty
  pure (ty, catalog)

/-! ## Finite types -/

/-- Every reference is known, and every decimal type is valid. -/
def validateTypeReferences (catalog : Catalog) : ℕ → ScalarType → Result Unit
  | 0, _ => .error depthError
  | n + 1, ty =>
    match ty with
    | .decimal precision scale => validateDecimalType precision scale
    | .ref id => do
      let _ ← catalog.definition id
      pure ()
    | .record columns => columns.forM fun column => validateTypeReferences catalog n column.ty
    | .enum variants =>
      variants.forM fun variant => variant.args.forM (validateTypeReferences catalog n)
    | .tuple items => items.forM (validateTypeReferences catalog n)
    | .option inner | .list inner | .map inner => validateTypeReferences catalog n inner
    | .named name =>
      fail .E_SCHEMA ("unresolved type reference '" ++ name ++ "'" : String)
    | _ => pure ()

end Catalog

mutual
/-- The named types that a type mentions. -/
def ScalarType.references : ScalarType → List UInt64
  | .ref id => [id]
  | .record columns => referencesColumns columns
  | .enum variants => referencesVariants variants
  | .tuple items => referencesItems items
  | .option inner | .list inner | .map inner => inner.references
  | _ => []

def referencesItems : List ScalarType → List UInt64
  | [] => []
  | ty :: types => ty.references ++ referencesItems types

def referencesColumns : List (ColumnOf ScalarType) → List UInt64
  | [] => []
  | ⟨_, ty, _, _⟩ :: columns => ty.references ++ referencesColumns columns

def referencesVariants : List (VariantOf ScalarType) → List UInt64
  | [] => []
  | ⟨_, args, _⟩ :: variants => referencesItems args ++ referencesVariants variants
end

mutual
/-- Whether a type has a value, given the named types known to have one. -/
def ScalarType.isFinite (finite : List UInt64) : ScalarType → Bool
  | .ref id => id ∈ finite
  | .tuple items => finiteItems finite items
  | .record columns => finiteColumns finite columns
  | .enum variants => finiteVariant finite variants
  | .named _ => false
  | _ => true

def finiteItems (finite : List UInt64) : List ScalarType → Bool
  | [] => true
  | ty :: types => ty.isFinite finite && finiteItems finite types

def finiteColumns (finite : List UInt64) : List (ColumnOf ScalarType) → Bool
  | [] => true
  | ⟨_, ty, _, _⟩ :: columns => ty.isFinite finite && finiteColumns finite columns

/-- One variant is enough. -/
def finiteVariant (finite : List UInt64) : List (VariantOf ScalarType) → Bool
  | [] => false
  | ⟨_, args, _⟩ :: variants => finiteItems finite args || finiteVariant finite variants
end

namespace Catalog

/-- Follow the references of a named type; `visiting` holds the open types, which
bound the depth, and the state the finished ones. -/
def visitCycles (catalog : Catalog) : ℕ → List UInt64 → UInt64 → StateT (List UInt64) Result Unit
  | 0, _, _ => throw depthError
  | n + 1, visiting, id => do
    let visited ← get
    if id ∈ visited then pure ()
    else do
      let definition ← catalog.definition id
      (definition.ty.references.dedup.insertionSort (· ≤ ·)).forM fun reference =>
        if reference = id then pure ()
        else if reference ∈ id :: visiting then do
          let other ← catalog.definition reference
          throw { code := .E_SCHEMA, message := ("mutually recursive types '" ++ definition.name ++
            "' and '" ++ other.name ++ "' are not supported; use direct self-reference or " ++
            "separate the values" : String) }
        else visitCycles catalog n (id :: visiting) reference
      modify (id :: ·)

def validateNoMutualCycles (catalog : Catalog) : Result Unit := do
  let definitions := valuesOf catalog.types
  let _ ← (definitions.forM fun definition =>
    visitCycles catalog (definitions.length + 1) [] definition.id :
      StateT (List UInt64) Result Unit) []
  pure ()

def finitePass (definitions : List TypeDefinition) (finite : List UInt64) : List UInt64 :=
  definitions.foldl (fun finite definition =>
    if definition.id ∈ finite then finite
    else if definition.ty.isFinite finite then definition.id :: finite
    else finite) finite

/-- The named types with a value. Every pass but the last adds one. -/
def finiteTypes (definitions : List TypeDefinition) : List UInt64 :=
  (finitePass definitions)^[definitions.length] []

/-- Reject named types without a finite value. -/
def validateFiniteTypes (catalog : Catalog) : Result Unit := do
  let definitions := valuesOf catalog.types
  definitions.forM fun definition => catalog.validateTypeReferences MAX_DEPTH definition.ty
  catalog.validateNoMutualCycles
  let finite := finiteTypes definitions
  match definitions.filter fun definition => definition.id ∉ finite with
  | [] => pure ()
  | uninhabited => fail .E_SCHEMA ("recursive type " ++
      String.intercalate ", " (uninhabited.map fun definition => "'" ++ definition.name ++ "'") ++
      " has no finite value; add a terminating sum variant, option, or list path" : String)

/-! ## Definitions -/

section Count
variable (count : ScalarType → Result ℕ)

/-- A sum of identity counts that must stay a 64-bit number. -/
def addIds (a b : ℕ) : Result ℕ := if a + b < 2 ^ 64 then pure (a + b) else .error idsExhausted

def countItems (start : ℕ) (types : List ScalarType) : Result ℕ :=
  types.foldlM (fun total ty => do addIds total (← count ty)) start

end Count

/-- The number of identities that resolving a type hands out. -/
def structuralIdCount : ℕ → ScalarType → Result ℕ
  | 0, _ => .error depthError
  | n + 1, ty =>
    match ty with
    | .record columns => columns.foldlM (fun total column => do
        let total ← addIds total 1
        addIds total (← structuralIdCount n column.ty)) 0
    | .enum variants => variants.foldlM (fun total variant => do
        let total ← addIds total 1
        countItems (structuralIdCount n) total variant.args) 0
    | .tuple items => countItems (structuralIdCount n) 0 items
    | .option inner | .list inner | .map inner => structuralIdCount n inner
    | _ => pure 0

/-- Register a named type. Its identity is reserved first, so that its body can refer
to it; a failure leaves the catalog as it was. -/
def define (catalog : Catalog) (name : String) (ty : ScalarType) : Result Catalog :=
  if catalog.types.contains name then
    fail .E_SCHEMA ("type '" ++ name ++ "' already exists" : String)
  else do
    let bodyIds ← structuralIdCount MAX_DEPTH ty
    let reserved ← addIds catalog.nextId.toNat bodyIds
    let id := UInt64.ofNat reserved
    let types := catalog.types.insert name { id, name, ty := .bool }
    let (ty, nextId) ← resolveInner types MAX_DEPTH ty catalog.nextId
    let (_, nextId) ← allocateId nextId
    let declared : Catalog := { types := types.insert name { id, name, ty }, nextId }
    let ty ← declared.normalizeDefaults MAX_DEPTH ty
    let result : Catalog := { types := declared.types.insert name { id, name, ty }, nextId }
    result.validateFiniteTypes
    pure result

/-! ## What the operations produce -/

end Catalog

/-- A type as the catalog binds it. -/
structure ScalarType.Bound (ty : ScalarType) : Prop where
  wellFormed : ty.WellFormed
  uniqueIds : ty.Everywhere UniqueIds

namespace Catalog

section Produce
variable {resolve : ScalarType → StateT UInt64 Result ScalarType} {next next' : UInt64}

theorem allocateId_eq_ok {id : UInt64} (h : allocateId next = .ok (id, next')) :
    id = next ∧ next'.toNat = next.toNat + 1 := by
  unfold allocateId at h
  obtain ⟨hlt, h⟩ := of_required h
  cases h
  refine ⟨rfl, ?_⟩
  rw [UInt64.toNat_add, UInt64.toNat_one, Nat.mod_eq_of_lt hlt]

/-- What a resolver of parts keeps: identities only grow, and its results are bound. -/
def Resolves (resolve : ScalarType → StateT UInt64 Result ScalarType) : Prop :=
  ∀ ty next ty' next', 0 < next.toNat → resolve ty next = .ok (ty', next') →
    next.toNat ≤ next'.toNat ∧ ty'.Bound

theorem resolveItems_spec (h : Resolves resolve) {types out : List ScalarType}
    (hpos : 0 < next.toNat)
    (hrun : resolveItems resolve types next = .ok (out, next')) :
    next.toNat ≤ next'.toNat ∧ ∀ ty ∈ out, ty.Bound := by
  induction types generalizing next out with
  | nil =>
    cases hrun
    exact ⟨le_rfl, by simp⟩
  | cons ty types ih =>
    obtain ⟨ty', mid, hhead, hrun⟩ := stateT_bind_eq_ok.mp hrun
    obtain ⟨rest, last, hrest, hrun⟩ := stateT_bind_eq_ok.mp hrun
    cases hrun
    obtain ⟨hle, hbound⟩ := h _ _ _ _ hpos hhead
    obtain ⟨hle', hall⟩ := ih (by omega) hrest
    exact ⟨hle.trans hle', forall_mem_cons.mpr ⟨hbound, hall⟩⟩

variable {seen : List String}

theorem resolveColumns_spec (h : Resolves resolve) {columns out : List Column}
    (hpos : 0 < next.toNat)
    (hrun : resolveColumns resolve seen columns next = .ok (out, next')) :
    next.toNat ≤ next'.toNat ∧ (out.map fun c => c.name).Nodup ∧ (∀ c ∈ out, c.name ∉ seen) ∧
      (out.map fun c => c.id).Nodup ∧ ∀ c ∈ out, next.toNat ≤ c.id.toNat ∧ c.ty.Bound := by
  induction columns generalizing next out seen with
  | nil =>
    cases hrun
    exact ⟨le_rfl, by simp⟩
  | cons c columns ih =>
    unfold resolveColumns at hrun
    split at hrun
    · cases hrun
    · rename_i hfresh
      obtain ⟨ty, mid, hty, hrun⟩ := stateT_bind_eq_ok.mp hrun
      obtain ⟨id, mid', hid, hrun⟩ := stateT_bind_eq_ok.mp hrun
      obtain ⟨rest, last, hrest, hrun⟩ := stateT_bind_eq_ok.mp hrun
      cases hrun
      obtain ⟨hle, hbound⟩ := h _ _ _ _ hpos hty
      obtain ⟨rfl, hnext⟩ := allocateId_eq_ok hid
      obtain ⟨hle', hnames, hnot, hids, hall⟩ := ih (by omega) hrest
      refine ⟨by omega, nodup_cons.mpr ⟨fun hin => ?_, hnames⟩,
        forall_mem_cons.mpr ⟨hfresh, fun d hd hin => hnot d hd (mem_cons_of_mem _ hin)⟩,
        nodup_cons.mpr ⟨fun hin => ?_, hids⟩,
        forall_mem_cons.mpr ⟨⟨hle, hbound⟩, fun d hd => ⟨?_, (hall d hd).2⟩⟩⟩
      · obtain ⟨d, hd, heq⟩ := mem_map.mp hin
        exact hnot d hd (heq ▸ mem_cons_self ..)
      · obtain ⟨d, hd, heq⟩ := mem_map.mp hin
        have := (hall d hd).1
        rw [heq] at this
        simp only at this
        omega
      · have := (hall d hd).1
        omega

theorem resolveVariants_spec (h : Resolves resolve) {variants out : List EnumVariantDef}
    (hpos : 0 < next.toNat) (hrun : resolveVariants resolve seen variants next = .ok (out, next')) :
    next.toNat ≤ next'.toNat ∧ (out.map fun v => v.id).Nodup ∧ ∀ v ∈ out,
      next.toNat ≤ v.id.toNat ∧ ∀ ty ∈ v.args, ty.Bound := by
  induction variants generalizing next out seen with
  | nil =>
    cases hrun
    exact ⟨le_rfl, by simp⟩
  | cons v variants ih =>
    unfold resolveVariants at hrun
    split at hrun
    · cases hrun
    · obtain ⟨args, mid, hargs, hrun⟩ := stateT_bind_eq_ok.mp hrun
      obtain ⟨id, mid', hid, hrun⟩ := stateT_bind_eq_ok.mp hrun
      obtain ⟨rest, last, hrest, hrun⟩ := stateT_bind_eq_ok.mp hrun
      cases hrun
      obtain ⟨hle, hbound⟩ := resolveItems_spec h hpos hargs
      obtain ⟨rfl, hnext⟩ := allocateId_eq_ok hid
      obtain ⟨hle', hids, hall⟩ := ih (by omega) hrest
      refine ⟨by omega, nodup_cons.mpr ⟨fun hin => ?_, hids⟩,
        forall_mem_cons.mpr ⟨⟨hle, hbound⟩, fun d hd => ⟨?_, (hall d hd).2⟩⟩⟩
      · obtain ⟨d, hd, heq⟩ := mem_map.mp hin
        have := (hall d hd).1
        rw [heq] at this
        simp only at this
        omega
      · have := (hall d hd).1
        omega

end Produce

variable {ty : ScalarType} {catalog : Catalog} {n : ℕ}

theorem bound_leaf (h : ty.WellFormed) (hids : ty.UniqueIds)
    (hparts : ty.parts = []) : ty.Bound := ⟨h, .leaf hids hparts⟩

theorem bound_enum {variants : List EnumVariantDef} (hids : (variants.map fun v => v.id).Nodup)
    (hall : ∀ v ∈ variants, v.id ≠ 0 ∧ ∀ ty ∈ v.args, ty.Bound) :
    (ScalarType.enum variants).Bound := by
  refine ⟨.enum hids (fun v hv => (hall v hv).1)
    fun v hv ty hty => ((hall v hv).2 ty hty).wellFormed, .node hids fun part hpart => ?_⟩
  obtain ⟨v, hv, hpart⟩ := mem_flatMap.mp hpart
  exact ((hall v hv).2 part hpart).uniqueIds

theorem bound_record {columns : List Column} (hnames : (columns.map fun c => c.name).Nodup)
    (hids : (columns.map fun c => c.id).Nodup) (hall : ∀ c ∈ columns, c.ty.Bound) :
    (ScalarType.record columns).Bound := by
  refine ⟨.record hnames fun c hc => (hall c hc).wellFormed, .node hids fun part hpart => ?_⟩
  obtain ⟨c, hc, rfl⟩ := mem_map.mp hpart
  exact (hall c hc).uniqueIds

theorem bound_tuple {types : List ScalarType} (hall : ∀ ty ∈ types, ty.Bound) :
    (ScalarType.tuple types).Bound :=
  ⟨.tuple fun ty hty => (hall ty hty).wellFormed, .node trivial fun ty hty =>
    (hall ty hty).uniqueIds⟩

theorem bound_option (h : ty.Bound) : (ScalarType.option ty).Bound :=
  ⟨.option h.wellFormed, .node trivial (by simpa [ScalarType.parts] using h.uniqueIds)⟩

theorem bound_list (h : ty.Bound) : (ScalarType.list ty).Bound :=
  ⟨.list h.wellFormed, .node trivial (by simpa [ScalarType.parts] using h.uniqueIds)⟩

theorem bound_map (h : ty.Bound) : (ScalarType.map ty).Bound :=
  ⟨.map h.wellFormed, .node trivial (by simpa [ScalarType.parts] using h.uniqueIds)⟩

/-- **Resolving binds a type.** -/
theorem resolveInner_resolves (types : ExtTreeMap String TypeDefinition) (n : ℕ) :
    Resolves (resolveInner types n) := by
  induction n with
  | zero => rintro ty next ty' next' - ⟨⟩
  | succ n ih =>
    intro ty next ty' next' hpos hrun
    cases ty with
    | decimal precision scale =>
      obtain ⟨u, mid, hvalid, hrun⟩ := stateT_bind_eq_ok.mp hrun
      cases hrun
      obtain ⟨-, rfl⟩ := stateT_lift_eq_ok.mp hvalid
      exact ⟨le_rfl, bound_leaf (.decimal precision scale) trivial rfl⟩
    | named name =>
      rw [resolveInner] at hrun
      cases hname : types[name]? with
      | none =>
        rw [hname] at hrun
        cases hrun
      | some d =>
        rw [hname] at hrun
        cases hrun
        exact ⟨le_rfl, bound_leaf (.ref d.id) trivial rfl⟩
    | record columns =>
      obtain ⟨columns', mid, hcolumns, hrun⟩ := stateT_bind_eq_ok.mp hrun
      cases hrun
      obtain ⟨hle, hnames, -, hids, hall⟩ := resolveColumns_spec ih hpos hcolumns
      exact ⟨hle, bound_record hnames hids fun c hc => (hall c hc).2⟩
    | enum variants =>
      obtain ⟨variants', mid, hvariants, hrun⟩ := stateT_bind_eq_ok.mp hrun
      cases hrun
      obtain ⟨hle, hids, hall⟩ := resolveVariants_spec ih hpos hvariants
      refine ⟨hle, bound_enum hids fun v hv => ⟨?_, (hall v hv).2⟩⟩
      rintro hzero
      have := (hall v hv).1
      rw [hzero] at this
      simp only [UInt64.toNat_zero] at this
      omega
    | tuple items =>
      obtain ⟨items', mid, hitems, hrun⟩ := stateT_bind_eq_ok.mp hrun
      cases hrun
      obtain ⟨hle, hall⟩ := resolveItems_spec ih hpos hitems
      exact ⟨hle, bound_tuple hall⟩
    | option inner =>
      obtain ⟨inner', mid, hinner, hrun⟩ := stateT_bind_eq_ok.mp hrun
      cases hrun
      exact (ih _ _ _ _ hpos hinner).imp_right bound_option
    | list inner =>
      obtain ⟨inner', mid, hinner, hrun⟩ := stateT_bind_eq_ok.mp hrun
      cases hrun
      exact (ih _ _ _ _ hpos hinner).imp_right bound_list
    | map inner =>
      obtain ⟨inner', mid, hinner, hrun⟩ := stateT_bind_eq_ok.mp hrun
      cases hrun
      exact (ih _ _ _ _ hpos hinner).imp_right bound_map
    | ref id => cases hrun; exact ⟨le_rfl, bound_leaf (.ref id) trivial rfl⟩
    | int => cases hrun; exact ⟨le_rfl, bound_leaf .int trivial rfl⟩
    | float => cases hrun; exact ⟨le_rfl, bound_leaf .float trivial rfl⟩
    | bool => cases hrun; exact ⟨le_rfl, bound_leaf .bool trivial rfl⟩
    | text => cases hrun; exact ⟨le_rfl, bound_leaf .text trivial rfl⟩
    | uuid => cases hrun; exact ⟨le_rfl, bound_leaf .uuid trivial rfl⟩
    | date => cases hrun; exact ⟨le_rfl, bound_leaf .date trivial rfl⟩
    | timestamp => cases hrun; exact ⟨le_rfl, bound_leaf .timestamp trivial rfl⟩
    | duration => cases hrun; exact ⟨le_rfl, bound_leaf .duration trivial rfl⟩
    | bytes => cases hrun; exact ⟨le_rfl, bound_leaf .bytes trivial rfl⟩

theorem normalizeColumn_eq_ok {normalize : ScalarType → Result ScalarType}
    {c c' : Column} (h : normalizeColumn catalog normalize n c = .ok c') :
    c'.name = c.name ∧ c'.id = c.id ∧ normalize c.ty = .ok c'.ty := by
  obtain ⟨ty, hty, h⟩ := of_bind h
  split at h
  · cases h
    exact ⟨rfl, rfl, hty⟩
  · obtain ⟨value, -, rfl⟩ := of_bind_pure h
    exact ⟨rfl, rfl, hty⟩

theorem normalizeVariant_eq_ok {normalize : ScalarType → Result ScalarType}
    {v v' : EnumVariantDef} (h : normalizeVariant normalize v = .ok v') :
    v'.name = v.name ∧ v'.id = v.id ∧
      Forall₂ (fun ty ty' => normalize ty = .ok ty') v.args v'.args := by
  obtain ⟨args, hargs, rfl⟩ := of_bind_pure h
  exact ⟨rfl, rfl, mapM_eq_ok_iff.mp hargs⟩

variable {α β : Type} {ty' : ScalarType} {catalog' : Catalog}

/-- What a fallible map keeps of its list, read through two projections. -/
theorem map_eq_of_forall₂ {γ : Type} {R : α → β → Prop} {f : α → γ} {g : β → γ} {l : List α}
    {r : List β} (h : Forall₂ R l r) (hR : ∀ a b, R a b → g b = f a) : r.map g = l.map f := by
  induction h with
  | nil => rfl
  | cons hab _ ih => rw [map_cons, map_cons, hR _ _ hab, ih]

theorem exists_of_mem_right {R : α → β → Prop} {l : List α} {r : List β}
    (h : Forall₂ R l r) {b : β} (hb : b ∈ r) : ∃ a ∈ l, R a b := by
  induction h with
  | nil => cases hb
  | cons hab _ ih =>
    obtain rfl | hb := mem_cons.mp hb
    · exact ⟨_, mem_cons_self .., hab⟩
    · obtain ⟨a, ha, hR⟩ := ih hb
      exact ⟨a, mem_cons_of_mem _ ha, hR⟩

/-- Normalising defaults keeps a type bound. -/
theorem normalizeDefaults_bound
    (h : catalog.normalizeDefaults n ty = .ok ty') (hty : ty.Bound) : ty'.Bound := by
  induction n generalizing ty ty' with
  | zero => cases h
  | succ n ih =>
    cases ty with
    | record columns =>
      obtain ⟨columns', hcolumns, rfl⟩ := of_bind_pure h
      have hall := mapM_eq_ok_iff.mp hcolumns
      cases hty.wellFormed with
      | record names types =>
        refine bound_record ?_ ?_ fun c hc => ?_
        · rwa [map_eq_of_forall₂ hall fun a b hab => (normalizeColumn_eq_ok hab).1]
        · rw [map_eq_of_forall₂ hall fun a b hab => (normalizeColumn_eq_ok hab).2.1]
          exact hty.uniqueIds.here
        · obtain ⟨a, ha, hac⟩ := exists_of_mem_right hall hc
          exact ih (normalizeColumn_eq_ok hac).2.2 ⟨types a ha, hty.uniqueIds.field ha⟩
    | enum variants =>
      obtain ⟨variants', hvariants, rfl⟩ := of_bind_pure h
      have hall := mapM_eq_ok_iff.mp hvariants
      cases hty.wellFormed with
      | enum ids nonzero args =>
        refine bound_enum ?_ fun v hv => ?_
        · rwa [map_eq_of_forall₂ hall fun a b hab => (normalizeVariant_eq_ok hab).2.1]
        · obtain ⟨a, ha, hav⟩ := exists_of_mem_right hall hv
          obtain ⟨-, hid, hargs⟩ := normalizeVariant_eq_ok hav
          refine ⟨hid ▸ nonzero a ha, fun ty hty' => ?_⟩
          obtain ⟨arg, harg, hrun⟩ := exists_of_mem_right hargs hty'
          exact ih hrun ⟨args a ha arg harg, hty.uniqueIds.arg ha harg⟩
    | tuple items =>
      obtain ⟨items', hitems, rfl⟩ := of_bind_pure h
      cases hty.wellFormed with
      | tuple all =>
        refine bound_tuple fun ty hmem => ?_
        obtain ⟨a, ha, hrun⟩ := exists_of_mem_right (mapM_eq_ok_iff.mp hitems) hmem
        exact ih hrun ⟨all a ha, hty.uniqueIds.item ha⟩
    | option inner =>
      obtain ⟨inner', hinner, rfl⟩ := of_bind_pure h
      cases hty.wellFormed with
      | option wf => exact bound_option (ih hinner ⟨wf, hty.uniqueIds.option⟩)
    | list inner =>
      obtain ⟨inner', hinner, rfl⟩ := of_bind_pure h
      cases hty.wellFormed with
      | list wf => exact bound_list (ih hinner ⟨wf, hty.uniqueIds.list⟩)
    | map inner =>
      obtain ⟨inner', hinner, rfl⟩ := of_bind_pure h
      cases hty.wellFormed with
      | map wf => exact bound_map (ih hinner ⟨wf, hty.uniqueIds.map⟩)
    | _ => cases h; exact hty

/-- What every operation keeps: identities start above zero, and all registered types
are bound. -/
structure Sound (catalog : Catalog) : Prop where
  positive : 0 < catalog.nextId.toNat
  bound : ∀ (name : String) (d : TypeDefinition), catalog.types[name]? = some d → d.ty.Bound

theorem definition_mem {id : UInt64} {d : TypeDefinition} (h : catalog.definition id = .ok d) :
    d.id = id ∧ ∃ name : String, catalog.types[name]? = some d := by
  unfold definition at h
  split at h
  · rename_i found hfound
    cases h
    exact ⟨by simpa using find?_some hfound, mem_valuesOf.mp (mem_of_find?_eq_some hfound)⟩
  · cases h

theorem Sound.wellFormed (h : catalog.Sound) : catalog.WellFormed :=
  fun _ d hd => (h.bound _ d (definition_mem hd).2.choose_spec).wellFormed

theorem Sound.uniqueIds (h : catalog.Sound) : catalog.Everywhere ScalarType.UniqueIds :=
  fun _ d hd => (h.bound _ d (definition_mem hd).2.choose_spec).uniqueIds

theorem sound_empty : Catalog.empty.Sound := ⟨by decide, by simp [empty]⟩

theorem resolve_sound (h : catalog.Sound)
    (hrun : catalog.resolve n ty = .ok (ty', catalog')) : catalog'.Sound ∧ ty'.Bound := by
  obtain ⟨⟨resolved, nextId⟩, hresolve, normal, hnormal, hrun⟩ := of_bind₂ hrun
  cases hrun
  obtain ⟨hle, hbound⟩ := resolveInner_resolves _ _ _ _ _ _ h.positive hresolve
  exact ⟨⟨h.positive.trans_le hle, h.bound⟩, normalizeDefaults_bound hnormal hbound⟩

theorem define_sound {name : String} (h : catalog.Sound)
    (hrun : catalog.define name ty = .ok catalog') : catalog'.Sound := by
  unfold define at hrun
  obtain ⟨-, hrun⟩ := of_refused hrun
  obtain ⟨bodyIds, -, reserved, -, hrun⟩ := of_bind₂ hrun
  obtain ⟨⟨resolved, nextId⟩, hresolve, ⟨id, nextId'⟩, hallocate, hrun⟩ := of_bind₂ hrun
  obtain ⟨normal, hnormal, -, -, hrun⟩ := of_bind₂ hrun
  cases hrun
  obtain ⟨hle, hbound⟩ := resolveInner_resolves _ _ _ _ _ _ h.positive hresolve
  obtain ⟨-, hnext⟩ := allocateId_eq_ok hallocate
  refine ⟨show 0 < nextId'.toNat by omega, fun other d hd => ?_⟩
  simp only [ExtTreeMap.getElem?_insert] at hd
  split at hd
  · cases hd
    exact normalizeDefaults_bound hnormal hbound
  · exact h.bound other d hd

/-- The catalogs that the operations produce. -/
inductive Produced : Catalog → Prop
  | empty : Produced .empty
  | define {catalog catalog' : Catalog} {name : String} {ty : ScalarType} (h : Produced catalog)
      (run : catalog.define name ty = .ok catalog') : Produced catalog'
  | resolve {catalog catalog' : Catalog} {n : ℕ} {ty ty' : ScalarType} (h : Produced catalog)
      (run : catalog.resolve n ty = .ok (ty', catalog')) : Produced catalog'
  | allocate {catalog catalog' : Catalog} {id : UInt64} (h : Produced catalog)
      (run : catalog.allocate = .ok (id, catalog')) : Produced catalog'
  | restoreNextId {catalog catalog' : Catalog} {nextId : UInt64} (h : Produced catalog)
      (run : catalog.restoreNextId nextId = .ok catalog') : Produced catalog'

/-- **Produced catalogs are sound.** -/
theorem Produced.sound (h : catalog.Produced) : catalog.Sound := by
  induction h with
  | empty => exact sound_empty
  | define _ run ih => exact define_sound ih run
  | resolve _ run ih => exact (resolve_sound ih run).1
  | allocate _ run ih =>
    obtain ⟨⟨id, nextId⟩, hallocate, run⟩ := of_bind run
    cases run
    obtain ⟨-, hnext⟩ := allocateId_eq_ok hallocate
    exact ⟨show 0 < nextId.toNat by omega, ih.bound⟩
  | restoreNextId _ run ih =>
    unfold Catalog.restoreNextId at run
    obtain ⟨hzero, run⟩ := of_refused run
    cases run
    exact ⟨Nat.pos_of_ne_zero fun h => hzero (UInt64.toNat_inj.mp h), ih.bound⟩

end Catalog
end UnionId
