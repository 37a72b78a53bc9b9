import UnionId.Lib.CodeOrder
import UnionId.Model.Coerce

/-!
# Order-preserving index keys

Index keys are the concatenated codes of their components, with every byte of a
descending component complemented. The codes are self-delimiting, so unsigned
byte order of two keys is the component-wise typed order. A complete key adds
the index identity in front and the row identity behind.
-/
namespace UnionId.OrderedKey

open Lib Catalog

def INDEX_KEY_CODEC_VERSION : ℕ := 3
def MAP_INDEX_KEY_CODEC_VERSION : ℕ := 4
def MAX_COMPLETE_INDEX_KEY_BYTES : ℕ := 64 * 1024
/-- The bytes of `UIDI`. -/
def INDEX_MAGIC : List UInt8 := [0x55, 0x49, 0x44, 0x49]

/-- One index component: its bound type, its value and its direction. -/
structure Component where
  ty : ScalarType
  value : Value
  descending : Bool

/-- Zero bytes are escaped, and a double zero ends the text. -/
def encodeEscaped : List UInt8 → List UInt8
  | [] => [0, 0]
  | byte :: bytes =>
    if byte = 0 then 0 :: 0xff :: encodeEscaped bytes else byte :: encodeEscaped bytes

/-- The codes of product components, in order. -/
def encodeProduct {τ : Type} (encode : τ → Value → Result (List UInt8)) :
    List τ → List Value → Result (List UInt8)
  | ty :: tys, v :: vs => do
    let head ← encode ty v
    let tail ← encodeProduct encode tys vs
    pure (head ++ tail)
  | _, _ => pure []

/-- The codes of record columns, each looked up by name. -/
def encodeColumns (encode : ScalarType → Value → Result (List UInt8)) (mismatch : Error)
    (fields : List (String × Value)) : List Column → Result (List UInt8)
  | [] => pure []
  | column :: columns => do
    let some v := fields.lookup column.name | throw mismatch
    let head ← encode column.ty v
    let tail ← encodeColumns encode mismatch fields columns
    pure (head ++ tail)

/-- A sequence: each element behind a one, the end marked by a zero. -/
def encodeSequence {α : Type} (encode : α → Result (List UInt8)) : List α → Result (List UInt8)
  | [] => pure [0]
  | v :: vs => do
    let head ← encode v
    let tail ← encodeSequence encode vs
    pure (1 :: head ++ tail)

/-- A tagged value: the stable variant identity, then the arguments. -/
def encodeEnum (encode : ScalarType → Value → Result (List UInt8)) (mismatch : Error)
    (variants : List EnumVariantDef) (id : UInt64) (args : List Value) : Result (List UInt8) := do
  let some variant := findVariant variants id | throw mismatch
  if args.length ≠ variant.args.length then throw mismatch
  let payload ← encodeProduct encode variant.args args
  pure (beBytes 8 id.toNat ++ payload)

/-- A map entry: the escaped key, then the value. -/
def encodeEntry (encode : Value → Result (List UInt8)) (entry : String × Value) :
    Result (List UInt8) := do
  let payload ← encode entry.2
  pure (encodeEscaped (utf8 entry.1) ++ payload)

/-- The code of one value, at the remaining nesting depth. -/
def encodeValue (catalog : Catalog) (version : ℕ) : ℕ → ScalarType → Value → Result (List UInt8)
  | 0, _, _ => fail .E_LIMIT "secondary index value is too deeply nested"
  | n + 1, ty, value =>
    let mismatch : Error := { code := .E_TYPE, message :=
      "index value does not match bound type '" ++ Message.type ty ++ "'" }
    match ty with
    | .int =>
      match value with
      | .int v => pure (beBytes 8 (biased 63 v.toInt))
      | _ => throw mismatch
    | .float =>
      match value with
      | .float bits =>
        if Float64.isFinite bits then
          pure (beBytes 8 (Float64.ordered (Float64.normalizeZero bits)).toNat)
        else fail .E_TYPE "non-finite float has no typed index order"
      | _ => throw mismatch
    | .bool =>
      match value with
      | .bool v => pure [if v then 1 else 0]
      | _ => throw mismatch
    | .text =>
      match value with
      | .text v => pure (encodeEscaped (utf8 v))
      | _ => throw mismatch
    | .uuid =>
      match value with
      | .uuid v => pure v.bytes
      | _ => throw mismatch
    | .date =>
      match value with
      | .date v => pure (beBytes 4 (biased 31 v.epochDays.toInt))
      | _ => throw mismatch
    | .timestamp =>
      match value with
      | .timestamp v => pure (beBytes 8 (biased 63 v.epochMicroseconds.toInt))
      | _ => throw mismatch
    | .duration =>
      match value with
      | .duration v => pure (beBytes 8 (biased 63 v.microseconds.toInt))
      | _ => throw mismatch
    | .decimal _ scale =>
      match value with
      | .decimal v =>
        if v.scale = scale then pure (beBytes 16 (biased 127 v.coefficient)) else throw mismatch
      | _ => throw mismatch
    | .bytes =>
      match value with
      | .bytes v => pure (encodeEscaped v.bytes)
      | _ => throw mismatch
    | .ref id =>
      match value with
      | .named typeId v =>
        if typeId = id then do
          let definition ← catalog.definition id
          encodeValue catalog version n definition.ty v
        else throw mismatch
      | _ => throw mismatch
    | .enum variants =>
      match value with
      | .enum _ args id => encodeEnum (encodeValue catalog version n) mismatch variants id args
      | _ => throw mismatch
    | .record columns =>
      match value with
      | .record fields =>
        if fields.length = columns.length then
          encodeColumns (encodeValue catalog version n) mismatch fields (columnsById columns)
        else throw mismatch
      | _ => throw mismatch
    | .tuple types =>
      match value with
      | .tuple items =>
        if items.length = types.length then
          encodeProduct (encodeValue catalog version n) types items
        else throw mismatch
      | _ => throw mismatch
    | .option inner =>
      match value with
      | .option none => pure [0]
      | .option (some v) => do
        let payload ← encodeValue catalog version n inner v
        pure (1 :: payload)
      | _ => throw mismatch
    | .list inner =>
      match value with
      | .list items => encodeSequence (encodeValue catalog version n inner) items
      | _ => throw mismatch
    | .map inner =>
      if version < MAP_INDEX_KEY_CODEC_VERSION then
        fail .E_STORAGE_UPGRADE_REQUIRED "map index values require index key codec 4"
      else
        match value with
        | .map entries => encodeSequence (encodeEntry (encodeValue catalog version n inner)) entries
        | _ => throw mismatch
    | .named name =>
      fail .E_SCHEMA ("unresolved type '" ++ name ++ "' cannot be indexed" : String)

/-- One component, complemented when it descends. -/
def encodeComponent (catalog : Catalog) (version : ℕ) (component : Component) :
    Result (List UInt8) := do
  let code ← encodeValue catalog version MAX_DEPTH component.ty component.value
  pure (if component.descending then code.map (~~~·) else code)

/-- The codes of all components, in order. -/
def encodeComponents (catalog : Catalog) (version : ℕ) : List Component → Result (List UInt8)
  | [] => pure []
  | component :: components => do
    let head ← encodeComponent catalog version component
    let tail ← encodeComponents catalog version components
    pure (head ++ tail)

def encodeTupleVersion (catalog : Catalog) (components : List Component) (version : ℕ) :
    Result (List UInt8) :=
  if components.isEmpty ∨ components.length > MAX_INDEX_COMPONENTS then
    fail .E_INDEX_SHAPE
      ("an index requires 1 to " ++ toString MAX_INDEX_COMPONENTS ++ " fields" : String)
  else encodeComponents catalog version components

/-- The key of a tuple, in the newest vocabulary. -/
def encodeTuple (catalog : Catalog) (components : List Component) : Result (List UInt8) :=
  encodeTupleVersion catalog components MAP_INDEX_KEY_CODEC_VERSION

def encodeCompleteVersion (catalog : Catalog) (indexId : UInt64) (components : List Component)
    (rowId : UInt64) (version : ℕ) : Result (List UInt8) := do
  let tuple ← encodeTupleVersion catalog components version
  if components.length > 255 then fail .E_INDEX_SHAPE "too many index fields"
  let output := INDEX_MAGIC ++ beBytes 2 version ++ beBytes 8 indexId.toNat ++
    [UInt8.ofNat components.length] ++ tuple ++ beBytes 8 rowId.toNat
  if output.length > MAX_COMPLETE_INDEX_KEY_BYTES then
    fail .E_INDEX_KEY_LIMIT ("encoded secondary index key is " ++ toString output.length ++
      " bytes; limit is " ++ toString MAX_COMPLETE_INDEX_KEY_BYTES : String)
  pure output

def encodeCompleteV4 (catalog : Catalog) (indexId : UInt64) (components : List Component)
    (rowId : UInt64) : Result (List UInt8) :=
  encodeCompleteVersion catalog indexId components rowId MAP_INDEX_KEY_CODEC_VERSION

end UnionId.OrderedKey
