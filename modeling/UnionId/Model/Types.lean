import Mathlib.Data.List.Sort
import UnionId.Lib.Float64

/-!
# Values, types and errors

The data every other module speaks about: scalar domains with their range
checks, nested values, the type language, and the error record. A `BTreeMap`
inside a value is a key-value list; the operations that build one keep its keys
ascending. Error texts carry the described type itself instead of its rendering.
-/
namespace UnionId

/-- Deepest nesting of a type or value. -/
def MAX_DEPTH : ℕ := 64
def MAX_MAP_ENTRIES : ℕ := 4096
def MAX_MAP_KEY_BYTES : ℕ := 4096
/-- Largest binary value. -/
def MAX_BYTES : ℕ := 16 * 1024 * 1024
/-- Largest binary value inside an index key. -/
def MAX_INDEXED_BYTES : ℕ := 8 * 1024
/-- Most fields of one index. -/
def MAX_INDEX_COMPONENTS : ℕ := 16
/-- The largest 64-bit counter. -/
def U64_MAX : ℕ := 2 ^ 64 - 1

/-- The UTF-8 bytes of a text. -/
def utf8 (s : String) : List UInt8 := s.toUTF8.data.toList

theorem utf8_inj {s t : String} : utf8 s = utf8 t ↔ s = t := by
  refine ⟨fun h => ?_, congrArg utf8⟩
  exact String.toByteArray_inj.mp (ByteArray.ext (Array.toList_inj.mp h))

/-! ## Scalar domains -/

/-- Exact coefficient and scale; the coefficient always fits 38 digits. -/
@[ext] structure Decimal where
  coefficient : ℤ
  scale : ℕ
  bounded : coefficient.natAbs < 10 ^ 38

/-- A Gregorian civil day of the years 0001 through 9999. -/
@[ext] structure Date where
  epochDays : Int32
  inRange : -719162 ≤ epochDays.toInt ∧ epochDays.toInt ≤ 2932896

/-- An instant of the years 0001 through 9999, in microseconds. -/
@[ext] structure Timestamp where
  epochMicroseconds : Int64
  inRange : -719162 * 86400000000 ≤ epochMicroseconds.toInt ∧
    epochMicroseconds.toInt < (2932896 + 1) * 86400000000

/-- A signed span of microseconds. -/
@[ext] structure Duration where
  microseconds : Int64

/-- An opaque 128-bit identifier in network byte order. -/
@[ext] structure Uuid where
  bytes : List UInt8
  length_eq : bytes.length = 16

/-- Bounded binary data. -/
@[ext] structure Bytes where
  bytes : List UInt8
  length_le : bytes.length ≤ MAX_BYTES

/-! ## Values -/

/-- A typed value. Doubles are bit patterns; records and maps list their entries
in key order. -/
inductive Value where
  | int (value : Int64)
  | float (bits : UInt64)
  | bool (value : Bool)
  | text (value : String)
  | uuid (value : Uuid)
  | date (value : Date)
  | timestamp (value : Timestamp)
  | duration (value : Duration)
  | decimal (value : Decimal)
  | bytes (value : Bytes)
  | null
  | enum (variant : String) (args : List Value) (id : UInt64)
  | record (fields : List (String × Value))
  | tuple (items : List Value)
  | list (items : List Value)
  | map (entries : List (String × Value))
  | option (value : Option Value)
  | named (typeId : UInt64) (value : Value)

/-! ## Types -/

/-- A field declaration over any type language. -/
structure ColumnOf (τ : Type) where
  name : String
  ty : τ
  default : Option Value
  id : UInt64

/-- A variant declaration over any type language. -/
structure VariantOf (τ : Type) where
  name : String
  args : List τ
  id : UInt64

/-- The type language. `named` exists only in parsed syntax; registered
definitions use stable `ref` identities. -/
inductive ScalarType where
  | int
  | float
  | bool
  | text
  | uuid
  | date
  | timestamp
  | duration
  | decimal (precision scale : ℕ)
  | bytes
  | enum (variants : List (VariantOf ScalarType))
  | record (columns : List (ColumnOf ScalarType))
  | tuple (items : List ScalarType)
  | option (inner : ScalarType)
  | list (inner : ScalarType)
  | map (inner : ScalarType)
  | named (name : String)
  | ref (id : UInt64)

abbrev Column := ColumnOf ScalarType
abbrev EnumVariantDef := VariantOf ScalarType

/-! ## Errors -/

/-- The stable error codes that the modelled functions raise. -/
inductive ErrorCode where
  | E_LIMIT
  | E_TYPE
  | E_FIELD
  | E_SCHEMA
  | E_MAP_LIMIT
  | E_DECIMAL_TYPE
  | E_DECIMAL_RANGE
  | E_INDEX_SHAPE
  | E_INDEX_KEY_LIMIT
  | E_STORAGE
  | E_STORAGE_UPGRADE_REQUIRED
  | E_TABLE
  | E_ARITH
  | E_CONSTRAINT
  | E_INDEX
  | E_INDEX_PREDICATE
  | E_INDEX_PREDICATE_CONTRADICTION
  | E_INDEX_DUPLICATE
  | E_GENERATION
  | E_RETURNING
  | E_MUTATION
  | E_MIGRATION
  | E_QUERY
  | E_PAGE_SHAPE
  | E_PAGE_ORDER
  | E_CURSOR_QUERY
  | E_CURSOR_CODEC
  | E_CURSOR_SCHEMA
  | E_CURSOR_STALE
  | E_CURSOR_LIMIT
  | E_CURSOR_DATABASE
  | E_PARAM_MISSING
  | E_PARAM_EXTRA
  | E_SCALAR_LITERAL
  | E_MATCH
  | E_RELATION_LIMIT
  | E_RELATION_KEY
  | E_INTERNAL
  | E_CODEC
  | E_BACKUP_ARCHIVE
  | E_BACKUP_CHAIN
  | E_BACKUP_JOURNAL_FULL
  | E_CHECKPOINT
  | E_CONFIG
  | E_EXPECTATION
  | E_EXPECTATION_CONTEXT
  | E_IDEMPOTENCY_CAPACITY
  | E_IDEMPOTENCY_CONFLICT
  | E_IDEMPOTENCY_DIGEST
  | E_IDEMPOTENCY_KEY
  | E_IDEMPOTENCY_LIMIT
  | E_IDEMPOTENCY_NOT_MUTATION
  | E_MAINTENANCE_CONFLICT
  | E_MAINTENANCE_LIMIT
  | E_MAINTENANCE_REQUIRED
  | E_READ_ONLY
  | E_READ_SNAPSHOT
  | E_SCHEMA_CHANGED
  | E_STORAGE_REOPEN_REQUIRED
  | E_CANCELLED
  | E_OPERATION_UNKNOWN
  deriving DecidableEq, Repr

/-- Value-free classification of an `E_CONSTRAINT` error. -/
inductive ConstraintKind where
  | referenceMissing
  | referenceRestricted
  | unique
  | partialUnique
  | primaryKey
  | primaryKeyMissing
  deriving DecidableEq, Repr

/-- An error text before rendering: literal text, a described type, a quoted string,
or the code of another error. -/
inductive Message where
  | text (s : String)
  | type (ty : ScalarType)
  | quoted (s : String)
  | code (c : ErrorCode)
  | append (a b : Message)

instance : Coe String Message := ⟨.text⟩
instance : Append Message := ⟨.append⟩

structure Error where
  code : ErrorCode
  message : Message
  constraint : Option ConstraintKind := none

abbrev Result := Except Error

def Error.render (e : Error) : Message := .code e.code ++ ": " ++ e.message

/-- A resource limit stopped the operation. -/
def IsLimit (e : Error) : Prop := e.code = .E_LIMIT

/-- An unclassified failure. -/
def fail {α : Type*} (code : ErrorCode) (message : Message) : Result α :=
  .error { code, message }

/-- An `E_CONSTRAINT` failure with its classification. -/
def violation (kind : ConstraintKind) (message : Message) : Error :=
  { code := .E_CONSTRAINT, message, constraint := some kind }

@[simp] theorem fail_ne_ok {α : Type*} (c : ErrorCode) (m : Message) (a : α) :
    fail c m ≠ .ok a := by simp [fail]

end UnionId
