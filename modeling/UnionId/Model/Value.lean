import UnionId.Lib.Assoc
import UnionId.Model.Types

/-!
# Operations on values

Field paths, structural equality and the canonical equality key. The source
renders the key as a JSON string of an injective tree; here the tree itself is
the key, with the canonical text of a scalar replaced by its number or bytes.
-/
namespace UnionId

open Lib

/-- The components of a dotted path. -/
def splitDots (path : String) : List String := (path.toList.splitOn '.').map String.ofList

def splitOnceDot (path : String) : Option (String × String) :=
  if '.' ∈ path.toList then
    some (String.ofList (path.toList.takeWhile (· ≠ '.')),
      String.ofList ((path.toList.dropWhile (· ≠ '.')).drop 1))
  else none

example : splitDots "a.b.c" = ["a", "b", "c"] ∧ splitOnceDot "a.b.c" = some ("a", "b.c") ∧
    splitOnceDot "a" = none := by decide

/-- The fields of a record or row, in key order. -/
abbrev Fields := List (String × Value)

namespace Value

/-- The value below any nominal wrappers. -/
def unwrapped : Value → Value
  | .named _ value => value.unwrapped
  | v => v

/-- Follow field names through records. -/
def fieldAt : List String → Value → Option Value
  | [], v => some v
  | component :: components, v =>
    match v.unwrapped with
    | .record fields => (fields.lookup component).bind (fieldAt components)
    | _ => none

def field (value : Value) (path : String) : Option Value := value.fieldAt (splitDots path)

mutual
/-- Structural equality: doubles by number, tagged values by stable identity, and
nominal values only with the same type. -/
def cmpEq : Value → Value → Bool
  | .int a, .int b => a = b
  | .float a, .float b => Float64.numEq a b
  | .bool a, .bool b => a = b
  | .text a, .text b => a = b
  | .uuid a, .uuid b => a.bytes = b.bytes
  | .date a, .date b => a.epochDays = b.epochDays
  | .timestamp a, .timestamp b => a.epochMicroseconds = b.epochMicroseconds
  | .duration a, .duration b => a.microseconds = b.microseconds
  | .decimal a, .decimal b => a.coefficient = b.coefficient ∧ a.scale = b.scale
  | .bytes a, .bytes b => a.bytes = b.bytes
  | .null, .null => true
  | .named a v, .named b w => a = b && v.cmpEq w
  | .enum av aargs aid, .enum bv bargs bid =>
    (if aid = 0 ∨ bid = 0 then decide (aid = bid ∧ av = bv) else decide (aid = bid)) &&
      equalItems aargs bargs
  | .record a, .record b => a.length = b.length && equalEntries a b
  | .tuple a, .tuple b => equalItems a b
  | .list a, .list b => equalItems a b
  | .map a, .map b => a.length = b.length && equalEntries a b
  | .option none, .option none => true
  | .option (some a), .option (some b) => a.cmpEq b
  | _, _ => false

/-- Position by position, with equal lengths. -/
def equalItems : List Value → List Value → Bool
  | [], [] => true
  | a :: as, b :: bs => a.cmpEq b && equalItems as bs
  | _, _ => false

/-- Every entry of the left side has an equal entry on the right. -/
def equalEntries : Fields → Fields → Bool
  | [], _ => true
  | (k, v) :: rest, b =>
    (match b.lookup k with
      | some w => v.cmpEq w
      | none => false) && equalEntries rest b
end

end Value

/-- The tree of a canonical equality key. -/
inductive IndexKey where
  | null
  | bool (value : Bool)
  | number (value : ℤ)
  | string (value : String)
  | array (items : List IndexKey)

namespace IndexKey

mutual
def decEq : (a b : IndexKey) → Decidable (a = b)
  | .null, .null => isTrue rfl
  | .bool a, .bool b => if h : a = b then isTrue (by rw [h]) else isFalse (by simpa using h)
  | .number a, .number b => if h : a = b then isTrue (by rw [h]) else isFalse (by simpa using h)
  | .string a, .string b => if h : a = b then isTrue (by rw [h]) else isFalse (by simpa using h)
  | .array a, .array b =>
    match decEqItems a b with
    | isTrue h => isTrue (by rw [h])
    | isFalse h => isFalse (by simpa using h)
  | .null, .bool _ | .null, .number _ | .null, .string _ | .null, .array _
  | .bool _, .null | .bool _, .number _ | .bool _, .string _ | .bool _, .array _
  | .number _, .null | .number _, .bool _ | .number _, .string _ | .number _, .array _
  | .string _, .null | .string _, .bool _ | .string _, .number _ | .string _, .array _
  | .array _, .null | .array _, .bool _ | .array _, .number _ | .array _, .string _ =>
    isFalse (by simp)
def decEqItems : (a b : List IndexKey) → Decidable (a = b)
  | [], [] => isTrue rfl
  | a :: as, b :: bs =>
    match decEq a b, decEqItems as bs with
    | isTrue h, isTrue h' => isTrue (by rw [h, h'])
    | isFalse h, _ => isFalse (by simp [h])
    | _, isFalse h => isFalse (by simp [h])
  | [], _ :: _ | _ :: _, [] => isFalse (by simp)
end

instance : DecidableEq IndexKey := decEq

end IndexKey

namespace Value

mutual
/-- The canonical equality key. All nested floating-point zeros share one key,
and a tagged value with a stable identity does not show its name. -/
def indexKey : Value → IndexKey
  | .int v => .array [.string "int", .number v.toInt]
  | .float bits => .array [.string "float", .number (Float64.normalizeZero bits).toNat]
  | .bool v => .array [.string "bool", .bool v]
  | .text v => .array [.string "text", .string v]
  | .uuid v => .array [.string "uuid", .array (v.bytes.map fun b => .number b.toNat)]
  | .date v => .array [.string "date", .number v.epochDays.toInt]
  | .timestamp v => .array [.string "timestamp", .number v.epochMicroseconds.toInt]
  | .duration v => .array [.string "duration", .number v.microseconds.toInt]
  | .decimal v => .array [.string "decimal", .array [.number v.coefficient, .number v.scale]]
  | .bytes v => .array [.string "bytes", .array (v.bytes.map fun b => .number b.toNat)]
  | .null => .array [.string "null"]
  | .named typeId v => .array [.string "named", .number typeId.toNat, v.indexKey]
  | .enum variant args id => .array [.string "enum", .number id.toNat,
      .string (if id = 0 then variant else ""), .array (indexKeyItems args)]
  | .record fields => .array [.string "record", .array (indexKeyEntries fields)]
  | .tuple items => .array [.string "tuple", .array (indexKeyItems items)]
  | .list items => .array [.string "list", .array (indexKeyItems items)]
  | .map entries => .array [.string "map", .array (indexKeyEntries entries)]
  | .option none => .array [.string "option", .null]
  | .option (some v) => .array [.string "option", v.indexKey]

def indexKeyItems : List Value → List IndexKey
  | [] => []
  | v :: vs => v.indexKey :: indexKeyItems vs

def indexKeyEntries : Fields → List IndexKey
  | [] => []
  | (k, v) :: rest => .array [.string k, v.indexKey] :: indexKeyEntries rest
end

mutual
/-- Whether binary data too large for an index key occurs anywhere inside. -/
def oversized : Value → Bool
  | .named _ v => v.oversized
  | .bytes v => v.bytes.length > MAX_INDEXED_BYTES
  | .enum _ args _ => oversizedItems args
  | .record fields => oversizedEntries fields
  | .tuple items => oversizedItems items
  | .list items => oversizedItems items
  | .option (some v) => v.oversized
  | _ => false

def oversizedItems : List Value → Bool
  | [] => false
  | v :: vs => v.oversized || oversizedItems vs

def oversizedEntries : Fields → Bool
  | [] => false
  | (_, v) :: rest => v.oversized || oversizedEntries rest
end

end Value

/-- The value at a path of a row: a column of exactly that name, else the head
column followed through its records. -/
def rowField (row : Fields) (path : String) : Option Value :=
  match row.lookup path with
  | some value => some value
  | none =>
    match splitOnceDot path with
    | some (head, tail) => (row.lookup head).bind fun v => v.field tail
    | none => none

example : rowField [("a", .record [("b", .int 1)]), ("c", .int 2)] "a.b" = some (.int 1) := rfl

end UnionId
