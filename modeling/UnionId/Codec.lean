import UnionId.Lib.Wire
import UnionId.Model.Coerce
import UnionId.Scalars.Temporal

/-!
# The value codec

Durable values are written behind a magic number and a codec version, directed by
their bound type: nominal types, fields and variants by stable identity, collections
behind their length. The decoder is driven by the same type and accepts record fields
in any order. Both sides recurse on the remaining nesting depth. The decoder's
position is the list of bytes that are left.
-/
namespace UnionId.Codec

open Lib Catalog

/-- The bytes of `UIDV`. -/
def MAGIC : List UInt8 := [0x55, 0x49, 0x44, 0x56]
def VALUE_CODEC_VERSION : UInt16 := 1
def PRODUCTION_VALUE_CODEC_VERSION : UInt16 := 2
def MAP_VALUE_CODEC_VERSION : UInt16 := 3
def MAX_VALUE_BYTES : ℕ := 16 * 1024 * 1024
def MAX_COLLECTION_ITEMS : ℕ := 1000000

def codecError (message : Message) : Error := { code := .E_CODEC, message }

def typeMismatch (path : Message) : Error :=
  codecError (path ++ ": typed value does not match its schema")

/-- The refusal of a value that is nested too deeply. -/
def nestingError : Error :=
  codecError ("value nesting exceeds " ++ toString MAX_DEPTH ++ " levels" : String)

def sizeError : Error :=
  codecError ("encoded value exceeds " ++ toString MAX_VALUE_BYTES ++ " byte limit" : String)

def itemsError (path : Message) : Error :=
  codecError (path ++ (": collection exceeds " ++ toString MAX_COLLECTION_ITEMS ++ " item limit" :
    String))

def truncated : Error := codecError "truncated encoded value"

abbrev Encoder := ByteWriter Error
abbrev Decoder := ByteReader Error

/-! ## Which codec a type needs -/

/-- The disjunction over several types; every type is visited. -/
def visitTypes (visit : ScalarType → StateT (List UInt64) Result Bool) :
    List ScalarType → StateT (List UInt64) Result Bool
  | [] => pure false
  | ty :: types => do
    let head ← visit ty
    let tail ← visitTypes visit types
    pure (head || tail)

/-- Whether a scalar of the second codec occurs in a type. The state holds the named
types already visited. -/
def visitProtocol (catalog : Catalog) : ℕ → ScalarType → StateT (List UInt64) Result Bool
  | 0, _ => throw depthError
  | n + 1, ty =>
    match ty with
    | .uuid | .date | .timestamp | .duration | .bytes => pure true
    | .decimal precision scale => do
      validateDecimalType precision scale
      pure true
    | .ref id => do
      let seen ← get
      if id ∈ seen then pure false
      else do
        set (id :: seen)
        let definition ← catalog.definition id
        visitProtocol catalog n definition.ty
    | .record columns => visitTypes (visitProtocol catalog n) (columns.map fun c => c.ty)
    | .enum variants => visitTypes (visitProtocol catalog n) (variants.flatMap fun v => v.args)
    | .tuple items => visitTypes (visitProtocol catalog n) items
    | .option inner | .list inner => visitProtocol catalog n inner
    | .map _ => pure true
    | .named name => throw { code := .E_SCHEMA, message := ("unresolved type '" ++ name ++ "'" :
        String) }
    | .int | .float | .bool | .text => pure false

def requiresProtocolV2 (catalog : Catalog) (ty : ScalarType) : Result Bool := do
  let (required, _) ← visitProtocol catalog MAX_DEPTH ty []
  pure required

/-! ## Encoding -/

def putBytes (bytes : List UInt8) : Encoder Unit := put MAX_VALUE_BYTES sizeError bytes
def putU8 (value : UInt8) : Encoder Unit := putBytes [value]
def putU16 (value : UInt16) : Encoder Unit := putBytes (beBytes 2 value.toNat)
def putU64 (value : UInt64) : Encoder Unit := putBytes (beBytes 8 value.toNat)

/-- A length of items or bytes. -/
def putLen (len : ℕ) (path : Message) : Encoder Unit :=
  if len ≥ 2 ^ 32 then throw (codecError (path ++ ": item or byte length exceeds u32"))
  else putBytes (beBytes 4 len)

section Encode
variable (encode : ScalarType → Value → Message → Encoder Unit)

/-- Positional items; `label i` names the position in an error text. -/
def encodeItems (label : ℕ → Message) : ℕ → List ScalarType → List Value → Encoder Unit
  | i, ty :: types, v :: values => do
    encode ty v (label i)
    encodeItems label (i + 1) types values
  | _, _, _ => pure ()

def encodeField (path : Message) (fields : Fields) (column : Column) : Encoder Unit :=
  match fields.lookup column.name with
  | none => throw (codecError (path ++ ": missing field '" ++ column.name ++ "'"))
  | some field => encode column.ty field (path ++ "." ++ column.name)

/-- Each field behind the identity of its column. -/
def encodeColumns (path : Message) (fields : Fields) : List Column → Encoder Unit
  | [] => pure ()
  | column :: columns => do
    putU64 column.id
    encodeField encode path fields column
    encodeColumns path fields columns

/-- Each entry as its key and its value. -/
def encodeEntries (path : Message) (inner : ScalarType) : Fields → Encoder Unit
  | [] => pure ()
  | (key, value) :: entries =>
    if (utf8 key).length > MAX_MAP_KEY_BYTES then
      throw (codecError (path ++ ": map key exceeds byte limit"))
    else do
      putLen (utf8 key).length path
      putBytes (utf8 key)
      encode inner value (path ++ "[" ++ .quoted key ++ "]")
      encodeEntries path inner entries

/-- A tagged value: the identity of its variant, then the arguments. -/
def encodeEnum (path : Message) (variants : List EnumVariantDef) (args : List Value)
    (id : UInt64) : Encoder Unit :=
  match variants.find? fun variant => variant.id = id with
  | none => throw (codecError (path ++ (": unknown variant ID " ++ toString id : String)))
  | some variant =>
    if args.length ≠ variant.args.length then
      throw (codecError (path ++ (": variant ID " ++ toString id ++ " expects " ++
        toString variant.args.length ++ " argument(s), got " ++ toString args.length : String)))
    else do
      putU64 id
      putLen args.length path
      encodeItems encode
        (fun i => path ++ "." ++ variant.name ++ ("[" ++ toString i ++ "]" : String)) 0
        variant.args args

end Encode

/-- Write one value, at the remaining nesting depth. -/
def encodeInner (catalog : Catalog) (version : UInt16) :
    ℕ → ScalarType → Value → Message → Encoder Unit
  | 0, _, _, _ => throw nestingError
  | n + 1, ty, value, path =>
    match ty with
    | .int =>
      match value with
      | .int v => putBytes (beBytes 8 v.toBitVec.toNat)
      | _ => throw (typeMismatch path)
    | .float =>
      match value with
      | .float bits =>
        if Float64.isFinite bits then putBytes (beBytes 8 (Float64.normalizeZero bits).toNat)
        else throw (typeMismatch path)
      | _ => throw (typeMismatch path)
    | .bool =>
      match value with
      | .bool v => putU8 (if v then 1 else 0)
      | _ => throw (typeMismatch path)
    | .uuid =>
      match value with
      | .uuid v => putBytes v.bytes
      | _ => throw (typeMismatch path)
    | .date =>
      match value with
      | .date v => putBytes (beBytes 4 v.epochDays.toBitVec.toNat)
      | _ => throw (typeMismatch path)
    | .timestamp =>
      match value with
      | .timestamp v => putBytes (beBytes 8 v.epochMicroseconds.toBitVec.toNat)
      | _ => throw (typeMismatch path)
    | .duration =>
      match value with
      | .duration v => putBytes (beBytes 8 v.microseconds.toBitVec.toNat)
      | _ => throw (typeMismatch path)
    | .decimal _ _ =>
      match value with
      | .decimal v => putBytes (beBytes 16 (BitVec.ofInt 128 v.coefficient).toNat)
      | _ => throw (typeMismatch path)
    | .bytes =>
      match value with
      | .bytes v => do
        putLen v.bytes.length path
        putBytes v.bytes
      | _ => throw (typeMismatch path)
    | .text =>
      match value with
      | .text v => do
        putLen (utf8 v).length path
        putBytes (utf8 v)
      | _ => throw (typeMismatch path)
    | .ref id =>
      match value with
      | .named actual v =>
        if actual ≠ id then
          throw (codecError (path ++ (": expected type ID " ++ toString id ++ ", got " ++
            toString actual : String)))
        else do
          putU64 id
          let definition ← catalog.definition id
          encodeInner catalog version n definition.ty v path
      | _ => throw (typeMismatch path)
    | .record columns =>
      match value with
      | .record fields => do
        putLen columns.length path
        encodeColumns (encodeInner catalog version n) path fields (columnsById columns)
      | _ => throw (typeMismatch path)
    | .tuple types =>
      match value with
      | .tuple values =>
        if values.length ≠ types.length then
          throw (codecError (path ++ (": expected " ++ toString types.length ++
            " tuple item(s), got " ++ toString values.length : String)))
        else do
          putLen types.length path
          encodeItems (encodeInner catalog version n)
            (fun i => path ++ ("." ++ toString i : String)) 0 types values
      | _ => throw (typeMismatch path)
    | .option inner =>
      match value with
      | .option none => putU8 0
      | .option (some v) => do
        putU8 1
        encodeInner catalog version n inner v path
      | _ => throw (typeMismatch path)
    | .list inner =>
      match value with
      | .list values =>
        if values.length > MAX_COLLECTION_ITEMS then throw (itemsError path)
        else do
          putLen values.length path
          encodeItems (encodeInner catalog version n)
            (fun i => path ++ ("[" ++ toString i ++ "]" : String)) 0
            (List.replicate values.length inner) values
      | _ => throw (typeMismatch path)
    | .map inner =>
      if version < MAP_VALUE_CODEC_VERSION then
        throw (codecError "maps require value codec 3")
      else
        match value with
        | .map entries =>
          if entries.length > MAX_MAP_ENTRIES then
            throw (codecError (path ++ ": map exceeds entry limit"))
          else do
            putLen entries.length path
            encodeEntries (encodeInner catalog version n) path inner entries
        | _ => throw (typeMismatch path)
    | .enum variants =>
      match value with
      | .enum _ args id => encodeEnum (encodeInner catalog version n) path variants args id
      | _ => throw (typeMismatch path)
    | .named name => throw (codecError (path ++ ": unresolved type name '" ++ name ++ "'"))

def encodeValueVersion (catalog : Catalog) (ty : ScalarType) (value : Value) (version : UInt16) :
    Result (List UInt8) := do
  let required ← requiresProtocolV2 catalog ty
  if required ∧ version < PRODUCTION_VALUE_CODEC_VERSION then
    throw (codecError "production scalars require value codec 2")
  let value ← catalog.coerce value ty "value"
  let ((), bytes) ← (do
    putBytes MAGIC
    putU16 version
    encodeInner catalog version MAX_DEPTH ty value "value" : Encoder Unit) []
  pure bytes

/-! ## Decoding -/

def take (len : ℕ) : Decoder (List UInt8) := takeBytes truncated len

def getU8 : Decoder UInt8 := do
  let bytes ← take 1
  pure (UInt8.ofNat (beNat bytes))

def getU16 : Decoder UInt16 := do
  let bytes ← take 2
  pure (UInt16.ofNat (beNat bytes))

def getU64 : Decoder UInt64 := do
  let bytes ← take 8
  pure (UInt64.ofNat (beNat bytes))

def getLength : Decoder ℕ := do
  let bytes ← take 4
  pure (beNat bytes)

/-- The text that bytes encode, when they are valid UTF-8. -/
def fromUtf8 (bytes : List UInt8) : Option String := String.fromUTF8? ⟨bytes.toArray⟩

/-- A failure of another module, reported as one of the codec. -/
def liftScalar {α : Type} : Result α → Decoder α
  | .ok a => pure a
  | .error e => throw (codecError e.render)

section Decode
variable (decode : ScalarType → Message → Decoder Value)

/-- Positional items; `label i` names the position in an error text. -/
def decodeItems (label : ℕ → Message) : ℕ → List ScalarType → Decoder (List Value)
  | _, [] => pure []
  | i, ty :: types => do
    let value ← decode ty (label i)
    let values ← decodeItems label (i + 1) types
    pure (value :: values)

/-- So many fields, in any order; `seen` holds the identities already read. -/
def decodeColumns (path : Message) (columns : List Column) :
    ℕ → List UInt64 → Fields → Decoder Fields
  | 0, _, fields => pure fields
  | count + 1, seen, fields => do
    let fieldId ← getU64
    if fieldId ∈ seen then
      throw (codecError (path ++ (": duplicate field ID " ++ toString fieldId : String)))
    else
      match columns.find? fun column => column.id = fieldId with
      | none => throw (codecError (path ++ (": unknown field ID " ++ toString fieldId : String)))
      | some column => do
        let value ← decode column.ty (path ++ "." ++ column.name)
        decodeColumns path columns count (fieldId :: seen) (assocInsert column.name value fields)

/-- So many entries, with strictly ascending keys. -/
def decodeEntries (path : Message) (inner : ScalarType) :
    ℕ → Option String → Fields → Decoder Fields
  | 0, _, entries => pure entries
  | count + 1, previous, entries => do
    let length ← getLength
    if length > MAX_MAP_KEY_BYTES then
      throw (codecError (path ++ ": map key exceeds byte limit"))
    else do
      let bytes ← take length
      match fromUtf8 bytes with
      | none => throw (codecError (path ++ ": invalid map key"))
      | some key =>
        if previous.any fun previous => key ≤ previous then
          throw (codecError (path ++ ": map keys are not strictly ordered"))
        else do
          let value ← decode inner (path ++ "[" ++ .quoted key ++ "]")
          decodeEntries path inner count (some key) (assocInsert key value entries)

/-- A tagged value: its variant is found by identity. -/
def decodeEnum (path : Message) (variants : List EnumVariantDef) : Decoder Value := do
  let variantId ← getU64
  match variants.find? fun variant => variant.id = variantId with
  | none => throw (codecError (path ++ (": unknown variant ID " ++ toString variantId : String)))
  | some variant => do
    let count ← getLength
    if count ≠ variant.args.length then
      throw (codecError (path ++ (": variant ID " ++ toString variantId ++ " has " ++
        toString count ++ " argument(s), schema expects " ++ toString variant.args.length :
          String)))
    else do
      let args ← decodeItems decode
        (fun i => path ++ "." ++ variant.name ++ ("[" ++ toString i ++ "]" : String)) 0 variant.args
      pure (.enum variant.name args variantId)

end Decode

/-- Read one value, at the remaining nesting depth. -/
def decodeInner (catalog : Catalog) (version : UInt16) :
    ℕ → ScalarType → Message → Decoder Value
  | 0, _, _ => throw nestingError
  | n + 1, ty, path =>
    match ty with
    | .int => do
      let bytes ← take 8
      pure (.int (.ofBitVec (.ofNat 64 (beNat bytes))))
    | .float => do
      let bytes ← take 8
      let bits := UInt64.ofNat (beNat bytes)
      if !Float64.isFinite bits then throw (codecError (path ++ ": float must be finite"))
      else pure (.float (Float64.normalizeZero bits))
    | .bool => do
      let tag ← getU8
      if tag = 0 then pure (.bool false)
      else if tag = 1 then pure (.bool true)
      else throw (codecError (path ++ (": invalid bool tag " ++ toString tag : String)))
    | .uuid => do
      let bytes ← take 16
      if h : bytes.length = 16 then pure (.uuid ⟨bytes, h⟩) else throw truncated
    | .date => do
      let bytes ← take 4
      let date ← liftScalar (Date.fromEpochDays (.ofBitVec (.ofNat 32 (beNat bytes))))
      pure (.date date)
    | .timestamp => do
      let bytes ← take 8
      let timestamp ← liftScalar
        (Timestamp.fromEpochMicroseconds (.ofBitVec (.ofNat 64 (beNat bytes))))
      pure (.timestamp timestamp)
    | .duration => do
      let bytes ← take 8
      pure (.duration ⟨.ofBitVec (.ofNat 64 (beNat bytes))⟩)
    | .decimal precision scale => do
      let bytes ← take 16
      let decimal ← liftScalar (Decimal.new (BitVec.ofNat 128 (beNat bytes)).toInt precision scale)
      pure (.decimal decimal)
    | .bytes => do
      let len ← getLength
      let bytes ← take len
      let bytes ← liftScalar (Bytes.new bytes)
      pure (.bytes bytes)
    | .text => do
      let len ← getLength
      let bytes ← take len
      match fromUtf8 bytes with
      | none => throw (codecError (path ++ ": invalid UTF-8 text"))
      | some text => pure (.text text)
    | .ref id => do
      let actual ← getU64
      if actual ≠ id then
        throw (codecError (path ++ (": expected type ID " ++ toString id ++ ", got " ++
          toString actual : String)))
      else do
        let definition ← catalog.definition id
        let value ← decodeInner catalog version n definition.ty path
        pure (.named id value)
    | .record columns => do
      let count ← getLength
      if count ≠ columns.length then
        throw (codecError (path ++ (": encoded record has " ++ toString count ++
          " field(s), schema expects " ++ toString columns.length : String)))
      else do
        let fields ← decodeColumns (decodeInner catalog version n) path columns count [] []
        pure (.record fields)
    | .tuple types => do
      let count ← getLength
      if count ≠ types.length then
        throw (codecError (path ++ (": encoded tuple has " ++ toString count ++
          " item(s), schema expects " ++ toString types.length : String)))
      else do
        let items ← decodeItems (decodeInner catalog version n)
          (fun i => path ++ ("." ++ toString i : String)) 0 types
        pure (.tuple items)
    | .option inner => do
      let tag ← getU8
      if tag = 0 then pure (.option none)
      else if tag = 1 then do
        let value ← decodeInner catalog version n inner path
        pure (.option (some value))
      else throw (codecError (path ++ (": invalid option tag " ++ toString tag : String)))
    | .list inner => do
      let count ← getLength
      if count > MAX_COLLECTION_ITEMS then throw (itemsError path)
      else do
        requireBytes (codecError (path ++ ": list count exceeds remaining encoded bytes")) count
        let values ← decodeItems (decodeInner catalog version n)
          (fun i => path ++ ("[" ++ toString i ++ "]" : String)) 0 (List.replicate count inner)
        pure (.list values)
    | .map inner =>
      if version < MAP_VALUE_CODEC_VERSION then
        throw (codecError "maps require value codec 3")
      else do
        let count ← getLength
        if count > MAX_MAP_ENTRIES then throw (codecError (path ++ ": map exceeds entry limit"))
        else do
          let entries ← decodeEntries (decodeInner catalog version n) path inner count none []
          pure (.map entries)
    | .enum variants => decodeEnum (decodeInner catalog version n) path variants
    | .named name => throw (codecError (path ++ ": unresolved type name '" ++ name ++ "'"))

/-- The frame in front of a value: the magic number and a known version that covers the
type. -/
def decodeHeader (catalog : Catalog) (ty : ScalarType) : Decoder UInt16 := do
  let magic ← take MAGIC.length
  if magic ≠ MAGIC then throw (codecError "invalid value codec magic")
  else do
    let version ← getU16
    if version ≠ VALUE_CODEC_VERSION ∧ version ≠ PRODUCTION_VALUE_CODEC_VERSION ∧
        version ≠ MAP_VALUE_CODEC_VERSION then
      throw (codecError ("unsupported value codec version " ++ toString version : String))
    else do
      let required ← requiresProtocolV2 catalog ty
      if required ∧ version < PRODUCTION_VALUE_CODEC_VERSION then
        throw (codecError "production scalars require value codec 2")
      else pure version

def decodeValue (catalog : Catalog) (ty : ScalarType) (bytes : List UInt8) : Result Value := do
  if bytes.length > MAX_VALUE_BYTES then throw sizeError
  else do
    let (value, rest) ← (do
      let version ← decodeHeader catalog ty
      decodeInner catalog version MAX_DEPTH ty "value" : Decoder Value) bytes
    if rest ≠ [] then
      throw (codecError (toString rest.length ++ " trailing byte(s) after value" : String))
    else pure value

end UnionId.Codec
