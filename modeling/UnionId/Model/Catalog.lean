import Mathlib.Data.String.Basic
import UnionId.Lib.Assoc
import UnionId.Lib.Fallible
import UnionId.Lib.OrdMap
import UnionId.Model.Value

/-!
# The type catalog

Named type definitions, typed comparison and coercion. The source passes the
nesting depth upwards and stops at `MAX_DEPTH`; here the functions recurse on
the remaining depth, which is `MAX_DEPTH - depth`.
-/
namespace UnionId

open Lib Std

structure TypeDefinition where
  id : UInt64
  name : String
  ty : ScalarType

structure Catalog where
  types : ExtTreeMap String TypeDefinition
  nextId : UInt64

namespace Catalog

/-- The empty catalog; identity 0 is never handed out. -/
def empty : Catalog := { types := ∅, nextId := 1 }

def definition (catalog : Catalog) (id : UInt64) : Result TypeDefinition :=
  match (valuesOf catalog.types).find? (fun d => d.id = id) with
  | some d => .ok d
  | none => fail .E_SCHEMA ("unknown type ID " ++ toString id : String)

/-- The refusal of a value that is nested too deeply. -/
def depthError : Error :=
  { code := .E_LIMIT, message := ("type/value depth exceeds " ++ toString MAX_DEPTH : String) }

/-! ## Paths through declared types -/

def underlyingWithin (catalog : Catalog) : ℕ → ScalarType → Result ScalarType
  | 0, _ => fail .E_LIMIT "type reference depth exceeds limit"
  | n + 1, ty =>
    match ty with
    | .ref id => do
      let definition ← catalog.definition id
      underlyingWithin catalog n definition.ty
    | ty => pure ty

/-- The structural type behind any chain of named types. -/
def underlying (catalog : Catalog) (ty : ScalarType) : Result ScalarType :=
  catalog.underlyingWithin MAX_DEPTH ty

def findColumn (columns : List Column) (name : String) : Option Column :=
  columns.find? fun column => column.name = name

def unknownField {α : Type} (path : String) : Result α :=
  fail .E_FIELD ("unknown field '" ++ path ++ "'" : String)

/-- The fields below a record type. -/
def recordColumns (catalog : Catalog) (path : String) (ty : ScalarType) :
    Result (List Column) := do
  match ← catalog.underlying ty with
  | .record columns => pure columns
  | _ => fail .E_TYPE ("'" ++ path ++ "' traverses a non-record value; " ++
      "optional and variant values require explicit handling" : String)

def followFields (catalog : Catalog) (path : String) : ScalarType → List String → Result ScalarType
  | ty, [] => pure ty
  | ty, part :: parts => do
    let columns ← catalog.recordColumns path ty
    match findColumn columns part with
    | some column => followFields catalog path column.ty parts
    | none => unknownField path

def fieldType (catalog : Catalog) (fields : List Column) (path : String) : Result ScalarType :=
  match findColumn fields path with
  | some column => pure column.ty
  | none =>
    match splitDots path with
    | [] => unknownField path
    | first :: parts =>
      match findColumn fields first with
      | some column => catalog.followFields path column.ty parts
      | none => unknownField path

def pathIds (catalog : Catalog) (path : String) : List Column → List String → Result (List UInt64)
  | _, [] => pure []
  | columns, part :: parts =>
    match findColumn columns part with
    | none => unknownField path
    | some column =>
      match parts with
      | [] => pure [column.id]
      | _ :: _ => do
        let nested ← catalog.recordColumns path column.ty
        let ids ← pathIds catalog path nested parts
        pure (column.id :: ids)

/-- The stable field identities along a path. -/
def fieldPathIds (catalog : Catalog) (fields : List Column) (path : String) :
    Result (List UInt64) :=
  catalog.pathIds path fields (splitDots path)

/-! ## Typed comparison -/

/-- Compare element by element up to the shorter length, stopping at the first
difference. -/
def cmpZip {α : Type} (cmp : α → α → Result Ordering) : List α → List α → Result Ordering
  | l :: ls, r :: rs => do
    match ← cmp l r with
    | .eq => cmpZip cmp ls rs
    | o => pure o
  | _, _ => pure .eq

/-- Compare the components of a product in order, stopping at the first
difference. -/
def cmpProduct {τ : Type} (cmp : τ → Value → Value → Result Ordering) :
    List τ → List Value → List Value → Result Ordering
  | ty :: tys, l :: ls, r :: rs => do
    match ← cmp ty l r with
    | .eq => cmpProduct cmp tys ls rs
    | o => pure o
  | _, _, _ => pure .eq

def cmpTypedItems (cmp : ScalarType → Value → Value → Result Ordering)
    (types : List ScalarType) (left right : List Value) : Result Ordering :=
  if left.length ≠ types.length ∨ right.length ≠ types.length then
    fail .E_TYPE "tuple values do not match their bound comparison type"
  else cmpProduct cmp types left right

/-- Columns in ascending field identity, as a stable sort orders them. -/
def columnsById (columns : List Column) : List Column :=
  columns.insertionSort fun a b => a.id ≤ b.id

/-- Look up each column and compare the two values, in field-identity order. -/
def cmpColumns (cmp : ScalarType → Value → Value → Result Ordering) (mismatch : Error)
    (left right : List (String × Value)) : List Column → Result Ordering
  | [] => pure .eq
  | column :: columns => do
    let some l := left.lookup column.name | throw mismatch
    let some r := right.lookup column.name | throw mismatch
    match ← cmp column.ty l r with
    | .eq => cmpColumns cmp mismatch left right columns
    | o => pure o

/-- The variant a tagged value belongs to; the identity 0 belongs to none. -/
def findVariant (variants : List EnumVariantDef) (id : UInt64) : Option EnumVariantDef :=
  variants.find? fun variant => variant.id = id ∧ variant.id ≠ 0

/-- Tagged values compare by stable variant identity, then by their arguments. -/
def cmpEnum (cmp : ScalarType → Value → Value → Result Ordering) (mismatch : Error)
    (variants : List EnumVariantDef) (lid rid : UInt64) (largs rargs : List Value) :
    Result Ordering := do
  let some lv := findVariant variants lid | throw mismatch
  let some rv := findVariant variants rid | throw mismatch
  if largs.length ≠ lv.args.length ∨ rargs.length ≠ rv.args.length then throw mismatch
  match compare lid rid with
  | .eq => cmpTypedItems cmp lv.args largs rargs
  | o => pure o

/-- Map entries compare by key bytes, then by value. -/
def cmpEntry (cmp : Value → Value → Result Ordering) (l r : String × Value) : Result Ordering :=
  match compare (utf8 l.1) (utf8 r.1) with
  | .eq => cmp l.2 r.2
  | o => pure o

/-- Compare two values in the order of one bound type. -/
def cmpTypedInner (catalog : Catalog) : ℕ → ScalarType → Value → Value → Result Ordering
  | 0, _, _, _ => .error depthError
  | n + 1, ty, left, right =>
    let mismatch : Error := { code := .E_TYPE, message :=
      "values do not match bound comparison type '" ++ Message.type ty ++ "'" }
    match ty with
    | .int =>
      match left, right with
      | .int l, .int r => pure (compare l r)
      | _, _ => throw mismatch
    | .float =>
      match left, right with
      | .float l, .float r =>
        if !Float64.isFinite l || !Float64.isFinite r then
          fail .E_TYPE "non-finite float has no typed ordering"
        else pure (Float64.cmp l r)
      | _, _ => throw mismatch
    | .bool =>
      match left, right with
      | .bool l, .bool r => pure (compare l r)
      | _, _ => throw mismatch
    | .text =>
      match left, right with
      | .text l, .text r => pure (compare (utf8 l) (utf8 r))
      | _, _ => throw mismatch
    | .uuid =>
      match left, right with
      | .uuid l, .uuid r => pure (compare l.bytes r.bytes)
      | _, _ => throw mismatch
    | .date =>
      match left, right with
      | .date l, .date r => pure (compare l.epochDays r.epochDays)
      | _, _ => throw mismatch
    | .timestamp =>
      match left, right with
      | .timestamp l, .timestamp r => pure (compare l.epochMicroseconds r.epochMicroseconds)
      | _, _ => throw mismatch
    | .duration =>
      match left, right with
      | .duration l, .duration r => pure (compare l.microseconds r.microseconds)
      | _, _ => throw mismatch
    | .decimal _ scale =>
      match left, right with
      | .decimal l, .decimal r =>
        if l.scale = scale ∧ r.scale = scale then pure (compare l.coefficient r.coefficient)
        else throw mismatch
      | _, _ => throw mismatch
    | .bytes =>
      match left, right with
      | .bytes l, .bytes r => pure (compare l.bytes r.bytes)
      | _, _ => throw mismatch
    | .ref id =>
      match left, right with
      | .named leftId l, .named rightId r =>
        if leftId = id ∧ rightId = id then do
          let definition ← catalog.definition id
          cmpTypedInner catalog n definition.ty l r
        else throw mismatch
      | _, _ => throw mismatch
    | .enum variants =>
      match left, right with
      | .enum _ largs lid, .enum _ rargs rid =>
        cmpEnum (cmpTypedInner catalog n) mismatch variants lid rid largs rargs
      | _, _ => throw mismatch
    | .record columns =>
      match left, right with
      | .record l, .record r =>
        if l.length ≠ columns.length ∨ r.length ≠ columns.length then throw mismatch
        else cmpColumns (cmpTypedInner catalog n) mismatch l r (columnsById columns)
      | _, _ => throw mismatch
    | .tuple types =>
      match left, right with
      | .tuple l, .tuple r => cmpTypedItems (cmpTypedInner catalog n) types l r
      | _, _ => throw mismatch
    | .option inner =>
      match left, right with
      | .option none, .option none => pure .eq
      | .option none, .option (some _) => pure .lt
      | .option (some _), .option none => pure .gt
      | .option (some l), .option (some r) => cmpTypedInner catalog n inner l r
      | _, _ => throw mismatch
    | .list inner =>
      match left, right with
      | .list l, .list r => do
        let o ← cmpZip (cmpTypedInner catalog n inner) l r
        pure (o.then (compare l.length r.length))
      | _, _ => throw mismatch
    | .map inner =>
      match left, right with
      | .map l, .map r => do
        let o ← cmpZip (cmpEntry (cmpTypedInner catalog n inner)) l r
        pure (o.then (compare l.length r.length))
      | _, _ => throw mismatch
    | .named name =>
      fail .E_SCHEMA ("unresolved type '" ++ name ++ "' cannot be compared" : String)

/-- The semantic order shared by scans, cursors, aggregates and index keys. -/
def cmpTyped (catalog : Catalog) (ty : ScalarType) (left right : Value) : Result Ordering :=
  cmpTypedInner catalog MAX_DEPTH ty left right

end Catalog
end UnionId
