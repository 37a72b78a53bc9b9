import UnionId.Model.Catalog
import UnionId.Scalars.Decimal

/-!
# Coercion

Every value that enters a row passes `Catalog.coerce`, which checks it against a
bound type, fills in declared defaults, resolves variant names to their stable
identities and normalises floating-point zeros.
-/
namespace UnionId

open Lib Std

/-- Split at the last occurrence of a character. -/
def rsplitOnce (c : Char) (s : String) : Option (String × String) :=
  let reversed := s.toList.reverse
  if c ∈ reversed then
    some (String.ofList ((reversed.dropWhile (· ≠ c)).drop 1).reverse,
      String.ofList (reversed.takeWhile (· ≠ c)).reverse)
  else none

example : rsplitOnce '.' "a.b.C" = some ("a.b", "C") ∧ rsplitOnce '.' "C" = none := by decide

namespace Catalog

section Items
variable (coerce : Value → ScalarType → Message → Result Value)

/-- Coerce positional items; `label i` names the position in an error text. -/
def coerceItems (label : ℕ → Message) : ℕ → List Value → List ScalarType → Result (List Value)
  | i, v :: vs, ty :: tys => do
    let w ← coerce v ty (label i)
    let ws ← coerceItems label (i + 1) vs tys
    pure (w :: ws)
  | _, _, _ => pure []

def coerceEach (ty : ScalarType) (label : ℕ → Message) : ℕ → List Value → Result (List Value)
  | _, [] => pure []
  | i, v :: vs => do
    let w ← coerce v ty (label i)
    let ws ← coerceEach ty label (i + 1) vs
    pure (w :: ws)

/-- The value of one column of a record: the given field, else the declared
default. -/
def coerceColumn (path : Message) (fields : List (String × Value)) (column : Column) :
    Result Value :=
  let fieldPath := path ++ "." ++ column.name
  match fields.lookup column.name with
  | some value => coerce value column.ty fieldPath
  | none =>
    match column.default with
    | some default => coerce default column.ty fieldPath
    | none => fail .E_FIELD ("missing required field '" ++ fieldPath ++
        "'; declare a default or provide the field explicitly")

/-- All columns of a record, then the check for fields that no column declares. -/
def coerceRecord (path : Message) (fields : List (String × Value)) (columns : List Column) :
    Result (List (String × Value)) := do
  let out ← columns.foldlM (fun out column => do
    let value ← coerceColumn coerce path fields column
    pure (assocInsert column.name value out)) []
  match (fields.map Prod.fst).find? fun k => !columns.any fun c => c.name == k with
  | some extra => fail .E_FIELD ("unknown field '" ++ path ++ "." ++ extra ++ "'")
  | none => pure out

/-- One entry of a map, within the key limit. -/
def coerceEntry (path : Message) (valueType : ScalarType) (out : List (String × Value))
    (entry : String × Value) : Result (List (String × Value)) := do
  if (utf8 entry.1).length > MAX_MAP_KEY_BYTES then
    fail .E_MAP_LIMIT (path ++ "[" ++ Message.quoted entry.1 ++ ("]: map key exceeds " ++
      toString MAX_MAP_KEY_BYTES ++ " UTF-8 byte limit" : String))
  let value ← coerce entry.2 valueType (path ++ "[" ++ Message.quoted entry.1 ++ "]")
  pure (assocInsert entry.1 value out)

/-- The entries of a map, within the entry and key limits. -/
def coerceMap (path : Message) (entries : List (String × Value)) (valueType : ScalarType) :
    Result (List (String × Value)) :=
  if entries.length > MAX_MAP_ENTRIES then
    fail .E_MAP_LIMIT (path ++ (": map exceeds " ++ toString MAX_MAP_ENTRIES ++ " entry limit" :
      String))
  else entries.foldlM (coerceEntry coerce path valueType) []

/-- The unqualified variant name. A qualifier must name an enumeration that shares
a variant with the expected one. -/
def unqualifiedVariant (catalog : Catalog) (bad : Error) (name : String)
    (variants : List EnumVariantDef) : Result String :=
  match rsplitOnce '.' name with
  | none => pure name
  | some (qualifier, variantName) =>
    match catalog.types[qualifier]? with
    | some { ty := .enum expected, .. } =>
      if expected.any fun e => variants.any fun actual => e.id ≠ 0 ∧ e.id = actual.id then
        pure variantName
      else throw bad
    | _ => throw bad

/-- Resolve a variant by stable identity, or by name for a value that has none
yet, and coerce its arguments. -/
def coerceEnum (catalog : Catalog) (path : Message) (bad : Error) (name : String)
    (args : List Value) (id : UInt64) (variants : List EnumVariantDef) : Result Value := do
  let variantName ← unqualifiedVariant catalog bad name variants
  let found :=
    if id = 0 then variants.find? fun d => d.name = variantName
    else variants.find? fun d => d.id = id
  let some variant := found
    | fail .E_TYPE (path ++ ": unknown variant '" ++ name ++ "'")
  if variant.args.length ≠ args.length then
    fail .E_TYPE (path ++ ": variant '" ++ name ++ ("' expects " ++ toString variant.args.length ++
      " argument(s), got " ++ toString args.length : String))
  let args ← coerceItems coerce
    (fun i => path ++ "." ++ variant.name ++ ("[" ++ toString i ++ "]" : String)) 0
    args variant.args
  pure (.enum variant.name args variant.id)

end Items

/-- The body of a named value. An untagged record constructor spelled with the
type's own name counts as its body. -/
def refBody (bad : Error) (definition : TypeDefinition) (id : UInt64) : Value → Result Value
  | .named typeId inner => if typeId = id then pure inner else throw bad
  | .enum variant [.record fields] tag =>
    if variant = definition.name then pure (.record fields)
    else pure (.enum variant [.record fields] tag)
  | v => pure v

/-- Check a value against a type and bring it into canonical form. -/
def coerceInner (catalog : Catalog) : ℕ → Value → ScalarType → Message → Result Value
  | 0, _, _, _ => .error depthError
  | n + 1, value, ty, path =>
    let bad : Error := { code := .E_TYPE, message := path ++ ": expected " ++ Message.type ty }
    match ty with
    | .ref id => do
      let definition ← catalog.definition id
      let raw ← refBody bad definition id value
      let inner ← coerceInner catalog n raw definition.ty path
      pure (.named id inner)
    | .int =>
      match value with
      | .int v => pure (.int v)
      | _ => throw bad
    | .float =>
      match value with
      | .int v =>
        match Float64.ofIntExact? v.toInt with
        | some bits => pure (.float bits)
        | none => throw bad
      | .float bits =>
        if Float64.isFinite bits then pure (.float (Float64.normalizeZero bits)) else throw bad
      | _ => throw bad
    | .bool =>
      match value with
      | .bool v => pure (.bool v)
      | _ => throw bad
    | .uuid =>
      match value with
      | .uuid v => pure (.uuid v)
      | _ => throw bad
    | .date =>
      match value with
      | .date v => pure (.date v)
      | _ => throw bad
    | .timestamp =>
      match value with
      | .timestamp v => pure (.timestamp v)
      | _ => throw bad
    | .duration =>
      match value with
      | .duration v => pure (.duration v)
      | _ => throw bad
    | .bytes =>
      match value with
      | .bytes v => pure (.bytes v)
      | _ => throw bad
    | .decimal precision scale =>
      match value with
      | .decimal v => do
        let d ← v.rescale precision scale
        pure (.decimal d)
      | _ => throw bad
    | .text =>
      match value with
      | .text v => pure (.text v)
      | _ => throw bad
    | .record columns =>
      match value with
      | .record fields => do
        let out ← coerceRecord (coerceInner catalog n) path fields columns
        pure (.record out)
      | _ => throw bad
    | .tuple types =>
      match value with
      | .tuple items =>
        if items.length = types.length then do
          let items ← coerceItems (coerceInner catalog n)
            (fun i => path ++ ("." ++ toString i : String)) 0 items types
          pure (.tuple items)
        else throw bad
      | _ => throw bad
    | .list inner =>
      match value with
      | .list items => do
        let items ← coerceEach (coerceInner catalog n) inner
          (fun i => path ++ ("[" ++ toString i ++ "]" : String)) 0 items
        pure (.list items)
      | _ => throw bad
    | .map inner =>
      match value with
      | .map entries => do
        let entries ← coerceMap (coerceInner catalog n) path entries inner
        pure (.map entries)
      | _ => throw bad
    | .option inner =>
      match value with
      | .enum variant [] _ => if variant = "None" then pure (.option none) else throw bad
      | .enum variant [arg] _ =>
        if variant = "Some" then do
          let v ← coerceInner catalog n arg inner path
          pure (.option (some v))
        else throw bad
      | .option none => pure (.option none)
      | .option (some v) => do
        let v ← coerceInner catalog n v inner path
        pure (.option (some v))
      | _ => throw bad
    | .enum variants =>
      match value with
      | .enum variant args id =>
        coerceEnum (coerceInner catalog n) catalog path bad variant args id variants
      | _ => throw bad
    | .named _ => throw bad

/-- The canonical form of a value at a type; `path` names it in error texts. -/
def coerce (catalog : Catalog) (value : Value) (ty : ScalarType) (path : Message) : Result Value :=
  coerceInner catalog MAX_DEPTH value ty path

/-- A value is well typed when it is its own coercion. The path only appears in
error texts. -/
def WellTyped (catalog : Catalog) (ty : ScalarType) (value : Value) : Prop :=
  catalog.coerce value ty "value" = .ok value

end Catalog
end UnionId
