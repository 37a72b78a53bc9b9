import UnionId.Model.Coerce
import UnionId.Scalars.Temporal
import UnionId.Lib.Limited

/-!
# Expressions

Scalar and boolean expressions of the query language and their evaluation on one
row. Conditions over collections draw on a budget of element evaluations.
-/
namespace UnionId

open Lib

/-! ## Syntax -/

inductive CmpOp where
  | eq
  | ne
  | gt
  | gte
  | lt
  | lte
  deriving DecidableEq, Repr

inductive ArithmeticOp where
  | add
  | subtract
  | multiply
  | divide
  deriving DecidableEq, Repr

inductive ScalarExpression where
  | reference (path : String)
  | parameter (name : String) (ty : Option ScalarType)
  | literal (value : Value)
  | ascribed (value : ScalarExpression) (ty : ScalarType)
  | call (name : String) (arguments : List ScalarExpression)
  | length (value : ScalarExpression)
  | negate (value : ScalarExpression) (ty : Option ScalarType)
  | arithmetic (left : ScalarExpression) (op : ArithmeticOp) (right : ScalarExpression)
      (ty : Option ScalarType)

inductive BoolExpression where
  | value (value : ScalarExpression)
  | compare (left : ScalarExpression) (op : CmpOp) (right : ScalarExpression)
      (operandType : Option ScalarType)
  | contains (collection item : ScalarExpression)
  | membership (item collection : ScalarExpression) (negated : Bool)
  | any (collection : ScalarExpression) (binding : String) (predicate : BoolExpression)
  | all (collection : ScalarExpression) (binding : String) (predicate : BoolExpression)
  | isSome (value : ScalarExpression)
  | isNone (value : ScalarExpression)
  | not (value : BoolExpression)
  | and (left right : BoolExpression)
  | or (left right : BoolExpression)

/-- What the model leaves open: floating-point arithmetic and the scalar
functions of the language, apart from those on maps. -/
class Builtins where
  /-- An IEEE operation on bit patterns. -/
  floatArithmetic : ArithmeticOp → UInt64 → UInt64 → UInt64
  /-- The check of the literal arguments that comes before any evaluation. -/
  checkArguments : String → List ScalarExpression → Result Unit
  /-- How many leading arguments a function evaluates. -/
  dynamicArity : String → ℕ
  /-- A function applied to its evaluated arguments. -/
  call : String → List ScalarExpression → List Value → Result Value

/-! ## Budget -/

def MAX_COLLECTION_PREDICATE_EVALUATIONS : ℕ := 100000

def budgetError : Error :=
  { code := .E_LIMIT, message := "collection element evaluation limit of " ++
      toString MAX_COLLECTION_PREDICATE_EVALUATIONS ++ " exceeded" }

/-- An evaluation draws element evaluations from a budget. -/
abbrev Evaluation := StateT ℕ Result

def consumeCollectionPredicate : Evaluation Unit := drawUnit budgetError

/-! ## Arithmetic -/

/-- A 64-bit integer, unless it overflows. -/
def checkedInt (z : ℤ) : Option Int64 :=
  if -2 ^ 63 ≤ z ∧ z < 2 ^ 63 then some (Int64.ofInt z) else none

def finiteFloat (bits : UInt64) (context : String) : Result Value :=
  if Float64.isFinite bits then pure (.float (Float64.normalizeZero bits))
  else fail .E_ARITH (context ++ " produced a non-finite float" : String)

namespace Decimal

/-- The sum or difference of two coefficients of one scale. -/
def checkedCombine (name : String) (combine : ℤ → ℤ → ℤ) (left right : Decimal) : Result Decimal :=
  if left.scale ≠ right.scale then fail .E_TYPE "decimal scales must match"
  else
    let coefficient := combine left.coefficient right.coefficient
    if !fitsI128 coefficient then fail .E_ARITH ("decimal " ++ name ++ " overflow" : String)
    else
      match new coefficient 38 left.scale with
      | .ok d => pure d
      | .error _ => fail .E_ARITH ("decimal " ++ name ++ " exceeds 38 digits" : String)

def checkedAdd (left right : Decimal) : Result Decimal :=
  checkedCombine "addition" (· + ·) left right

def checkedSub (left right : Decimal) : Result Decimal :=
  checkedCombine "subtraction" (· - ·) left right

def checkedNeg (d : Decimal) : Result Decimal :=
  if !fitsI128 (-d.coefficient) then fail .E_ARITH "decimal negation overflow"
  else
    match new (-d.coefficient) 38 d.scale with
    | .ok d => pure d
    | .error _ => fail .E_ARITH "decimal negation exceeds 38 digits"

end Decimal

/-- Microseconds added or subtracted; other operations count as overflow. -/
def combineMicroseconds (op : ArithmeticOp) (left right : Int64) : Option Int64 :=
  match op with
  | .add => checkedInt (left.toInt + right.toInt)
  | .subtract => checkedInt (left.toInt - right.toInt)
  | _ => none

def overflow {α : Type} (message : String) : Option α → Result α
  | some a => pure a
  | none => fail .E_ARITH message

def evaluateInt (op : ArithmeticOp) (left right : Int64) : Result Value :=
  match op with
  | .add => return .int (← overflow "integer arithmetic overflow"
      (checkedInt (left.toInt + right.toInt)))
  | .subtract =>
    return .int (← overflow "integer arithmetic overflow" (checkedInt (left.toInt - right.toInt)))
  | .multiply =>
    return .int (← overflow "integer arithmetic overflow" (checkedInt (left.toInt * right.toInt)))
  | .divide =>
    if right = 0 then fail .E_ARITH "integer division by zero"
    else
      return .int (← overflow "integer arithmetic overflow"
        (checkedInt (left.toInt.tdiv right.toInt)))

/-- Arithmetic on two operands of a numeric or temporal type. -/
def evaluateArithmetic [Builtins] (left : Value) (op : ArithmeticOp) (right : Value) :
    Result Value :=
  let mismatch : Result Value :=
    fail .E_TYPE "arithmetic operands do not have the same numeric type"
  match left.unwrapped with
  | .int l =>
    match right.unwrapped with
    | .int r => evaluateInt op l r
    | _ => mismatch
  | .float l =>
    match right.unwrapped with
    | .float r =>
      if op = .divide ∧ Float64.isZero r then fail .E_ARITH "float division by zero"
      else finiteFloat (Builtins.floatArithmetic op l r) "float arithmetic"
    | _ => mismatch
  | .decimal l =>
    match right.unwrapped with
    | .decimal r =>
      match op with
      | .add => return .decimal (← l.checkedAdd r)
      | .subtract => return .decimal (← l.checkedSub r)
      | _ => fail .E_TYPE "decimal multiplication and division are not supported"
    | _ => mismatch
  | .duration l =>
    match right.unwrapped with
    | .duration r =>
      return .duration ⟨← overflow "duration arithmetic overflow"
        (combineMicroseconds op l.microseconds r.microseconds)⟩
    | _ => mismatch
  | .timestamp l =>
    match right.unwrapped with
    | .duration r => do
      let value ← overflow "timestamp arithmetic overflow"
        (combineMicroseconds op l.epochMicroseconds r.microseconds)
      return .timestamp (← Timestamp.fromEpochMicroseconds value)
    | .timestamp r =>
      if op = .subtract then
        return .duration ⟨← overflow "timestamp difference overflow"
          (checkedInt (l.epochMicroseconds.toInt - r.epochMicroseconds.toInt))⟩
      else mismatch
    | _ => mismatch
  | _ => mismatch

def evaluateNegate (value : Value) : Result Value :=
  match value.unwrapped with
  | .int v => return .int (← overflow "integer overflow in unary '-'" (checkedInt (-v.toInt)))
  | .float bits => finiteFloat (bits ^^^ ((1 : UInt64) <<< 63)) "unary '-'"
  | .duration v =>
    return .duration ⟨← overflow "duration overflow in unary '-'"
      (checkedInt (-v.microseconds.toInt))⟩
  | .decimal v => return .decimal (← v.checkedNeg)
  | _ => fail .E_TYPE "non-numeric unary '-' operand"

/-- Bring a raw result to the bound type. -/
def coerceArithmeticResult (catalog : Catalog) (ty : Option ScalarType) (value : Value) :
    Result Value :=
  match ty with
  | none => fail .E_TYPE "arithmetic expression was not bound"
  | some ty =>
    match catalog.coerce value ty "arithmetic result" with
    | .ok v => pure v
    | .error error =>
      match ty with
      | .decimal .. => if error.code = .E_DECIMAL_RANGE then fail .E_ARITH error.message
          else throw error
      | _ => throw error

/-- The number of elements, entries, characters or bytes. -/
def lengthOf (value : Value) : Option ℕ :=
  match value.unwrapped with
  | .list items => some items.length
  | .map entries => some entries.length
  | .text text => some text.length
  | .bytes bytes => some bytes.bytes.length
  | _ => none

def lengthValue (value : Value) : Result (Option Value) :=
  match lengthOf value with
  | none => pure none
  | some n =>
    match checkedInt n with
    | some i => pure (some (.int i))
    | none => fail .E_LIMIT "length exceeds i64 range"

/-! ## Scalar functions on maps -/

def isMapScalarFunction (name : String) : Bool :=
  name ∈ ["contains_key", "get", "keys", "values", "entries"]

def isBuiltinScalarFunction (name : String) : Bool :=
  isMapScalarFunction name || name ∈ ["starts_with", "ends_with", "contains_text", "date_of",
    "timestamp_trunc", "lower", "upper", "trim", "concat", "substring", "int_to_float",
    "float_to_int", "int_to_decimal", "to_text", "uuid_parse", "bytes_parse_hex", "date_parse",
    "timestamp_parse", "duration_parse", "decimal_parse", "decimal_rescale", "decimal_round",
    "decimal_mul", "decimal_div"]

/-- Collect one value per entry, each at the cost of one element evaluation. -/
def collectEntries (pick : String × Value → Value) : Fields → Evaluation (List Value)
  | [] => pure []
  | entry :: entries => do
    consumeCollectionPredicate
    let rest ← collectEntries pick entries
    pure (pick entry :: rest)

def mapEntries (name : String) (map : Value) : Result Fields :=
  match map.unwrapped with
  | .map entries => pure entries
  | _ => fail .E_TYPE (name ++ " expects a map" : String)

def mapKey (name : String) (key : Value) : Result String :=
  match key.unwrapped with
  | .text key => pure key
  | _ => fail .E_TYPE (name ++ " expects a text key" : String)

def callMapUnary (name : String) (entries : Fields) : Evaluation Value :=
  if name = "keys" then return .list (← collectEntries (fun entry => .text entry.1) entries)
  else if name = "values" then return .list (← collectEntries (fun entry => entry.2) entries)
  else return .list (← collectEntries (fun entry => .tuple [.text entry.1, entry.2]) entries)

def callMapBinary (name : String) (entries : Fields) (key : String) : Value :=
  if name = "contains_key" then .bool (entries.lookup key).isSome else .option (entries.lookup key)

/-- A function on maps. A key is evaluated only for a map. -/
def callMap (name : String) : List (Evaluation (Option Value)) → Evaluation (Option Value)
  | [map] => do
    match ← map with
    | none => pure none
    | some m => do
      let entries ← mapEntries name m
      return some (← callMapUnary name entries)
  | [map, key] => do
    match ← map with
    | none => pure none
    | some m => do
      let entries ← mapEntries name m
      match ← key with
      | none => pure none
      | some k => do
        let key ← mapKey name k
        pure (some (callMapBinary name entries key))
  | _ => throw { code := .E_INTERNAL, message := "bound map function arity" }

/-- Run evaluations in order, up to one without a value. -/
def inOrder : List (Evaluation (Option Value)) → Evaluation (Option (List Value))
  | [] => pure (some [])
  | argument :: arguments => do
    match ← argument with
    | none => pure none
    | some v => do
      match ← inOrder arguments with
      | none => pure none
      | some vs => pure (some (v :: vs))

/-! ## Evaluation -/

/-- The rest of a path below a scope name. -/
def underScope? (binding path : String) : Option String :=
  let head := binding.toList ++ ['.']
  if head.isPrefixOf path.toList then some (String.ofList (path.toList.drop head.length)) else none

/-- Paths of a bound element come before those of the row. -/
def scopedResolver (binding : String) (item : Value) (outer : String → Option Value)
    (path : String) :
    Option Value :=
  if path = binding then some item
  else
    match underScope? binding path with
    | some rest => item.field rest
    | none => outer path

section Evaluate
variable [Builtins] (catalog : Catalog)

mutual
/-- The value of a scalar expression; `none` when a path has no value. -/
def evaluateScalar (values : String → Option Value) :
    ScalarExpression → Evaluation (Option Value)
  | .reference path => pure (values path)
  | .parameter name _ =>
    throw { code := .E_PARAM_MISSING, message := "parameter '$" ++ name ++ "' was not bound" }
  | .literal value => pure (some value)
  | .ascribed value ty => do
    match ← evaluateScalar values value with
    | none => pure none
    | some v => return some (← catalog.coerce v ty "local function argument")
  | .call name arguments =>
    if isMapScalarFunction name then callMap name (evaluations values arguments)
    else if isBuiltinScalarFunction name then do
      Builtins.checkArguments name arguments
      match ← inOrder ((evaluations values arguments).take (Builtins.dynamicArity name)) with
      | none => pure none
      | some vs => return some (← Builtins.call name arguments vs)
    else
      throw { code := .E_QUERY, message :=
        "local function '" ++ name ++ "' was not expanded before execution" }
  | .length value => do
    match ← evaluateScalar values value with
    | none => pure none
    | some v => lengthValue v
  | .negate value ty => do
    match ← evaluateScalar values value with
    | none => pure none
    | some v => return some (← coerceArithmeticResult catalog ty (← evaluateNegate v))
  | .arithmetic left op right ty => do
    match ← evaluateScalar values left with
    | none => pure none
    | some l =>
      match ← evaluateScalar values right with
      | none => pure none
      | some r => return some (← coerceArithmeticResult catalog ty (← evaluateArithmetic l op r))

/-- The evaluations of a list of arguments, none of them run yet. -/
def evaluations (values : String → Option Value) :
    List ScalarExpression → List (Evaluation (Option Value))
  | [] => []
  | argument :: arguments => evaluateScalar values argument :: evaluations values arguments
end

/-- Ordered comparison in the bound type, equality by structure. -/
def compareValues (left : Value) (op : CmpOp) (right : Value) (operandType : Option ScalarType) :
    Result Bool :=
  match op with
  | .eq => pure (left.cmpEq right)
  | .ne => pure !(left.cmpEq right)
  | op =>
    match operandType with
    | none => fail .E_TYPE "ordered comparison was executed before its operand type was bound"
    | some ty => do
      let ordering ← catalog.cmpTyped ty left right
      pure (match op with
        | .gt => ordering == .gt
        | .lt => ordering == .lt
        | .gte => ordering != .lt
        | _ => ordering != .gt)

/-- Whether an element equals the item; each look costs one evaluation. -/
def findMember (item : Value) : List Value → Evaluation Bool
  | [] => pure false
  | candidate :: candidates => do
    consumeCollectionPredicate
    if candidate.cmpEq item then pure true else findMember item candidates

/-- Test elements until one decides: a failure for all of them, a success for
any of them. -/
def quantify (all : Bool) (test : Value → Evaluation Bool) : List Value → Evaluation Bool
  | [] => pure all
  | item :: items => do
    consumeCollectionPredicate
    let matched ← test item
    if matched ≠ all then pure !all else quantify all test items

/-- A list contains an equal element; bytes contain a slice. -/
def containsItem (collection item : Value) : Bool :=
  match collection.unwrapped with
  | .list items => items.any fun value => value.cmpEq item
  | .bytes haystack =>
    match item.unwrapped with
    | .bytes needle => haystack.bytes.tails.any fun rest => needle.bytes.isPrefixOf rest
    | _ => false
  | _ => false

def listItems (message : String) (collection : Value) : Result (List Value) :=
  match collection.unwrapped with
  | .list items => pure items
  | _ => fail .E_TYPE message

def optionPresence (value : Value) : Result Bool :=
  match value.unwrapped with
  | .option o => pure o.isSome
  | _ => fail .E_TYPE "bound option predicate received a non-option value"

/-- The truth of a boolean expression; a path without a value makes a condition
false. -/
def evaluateResolved (values : String → Option Value) : BoolExpression → Evaluation Bool
  | .value value => do
    match ← evaluateScalar catalog values value with
    | none => pure false
    | some v =>
      match v.unwrapped with
      | .bool b => pure b
      | _ => pure false
  | .compare left op right operandType => do
    match ← evaluateScalar catalog values left with
    | none => pure false
    | some l =>
      match ← evaluateScalar catalog values right with
      | none => pure false
      | some r => compareValues catalog l op r operandType
  | .contains collection item => do
    match ← evaluateScalar catalog values collection with
    | none => pure false
    | some c =>
      match ← evaluateScalar catalog values item with
      | none => pure false
      | some i => pure (containsItem c i)
  | .membership item collection negated => do
    match ← evaluateScalar catalog values item with
    | none => pure false
    | some i =>
      match ← evaluateScalar catalog values collection with
      | none => pure false
      | some c => do
        let matched ← findMember i (← listItems "bound 'in' expression received a non-list value" c)
        pure (if negated then !matched else matched)
  | .any collection binding predicate => do
    match ← evaluateScalar catalog values collection with
    | none => pure false
    | some c => do
      let items ← listItems "bound list element predicate received a non-list value" c
      quantify false (fun item => evaluateResolved (scopedResolver binding item values) predicate)
        items
  | .all collection binding predicate => do
    match ← evaluateScalar catalog values collection with
    | none => pure false
    | some c => do
      let items ← listItems "bound list element predicate received a non-list value" c
      quantify true (fun item => evaluateResolved (scopedResolver binding item values) predicate)
        items
  | .isSome value => do
    match ← evaluateScalar catalog values value with
    | none => pure false
    | some v => optionPresence v
  | .isNone value => do
    match ← evaluateScalar catalog values value with
    | none => pure false
    | some v => return !(← optionPresence v)
  | .not value => return !(← evaluateResolved values value)
  | .and left right => do
    if !(← evaluateResolved values left) then pure false else evaluateResolved values right
  | .or left right => do
    if ← evaluateResolved values left then pure true else evaluateResolved values right

def evaluate (row : Fields) (expression : BoolExpression) : Evaluation Bool :=
  evaluateResolved catalog (rowField row) expression

/-- A scalar that must have a value. -/
def evaluateScalarValue (values : String → Option Value) (expression : ScalarExpression) :
    Evaluation Value := do
  match ← evaluateScalar catalog values expression with
  | some v => pure v
  | none => throw { code := .E_QUERY, message := "bound scalar expression has no runtime value" }

def evaluateDerive (row : Fields) : BoolExpression → Evaluation Value
  | .value value => evaluateScalarValue catalog (rowField row) value
  | expression => return .bool (← evaluate catalog row expression)

/-- A value with a budget of its own. -/
def evaluateValue (values : String → Option Value) (expression : ScalarExpression) :
    Result Value := do
  let (value, _) ← evaluateScalarValue catalog values expression
    MAX_COLLECTION_PREDICATE_EVALUATIONS
  pure value

end Evaluate

/-! ## Comparisons that an index can serve -/

/-- The expression below any ascriptions. -/
def ScalarExpression.unwrapped : ScalarExpression → ScalarExpression
  | .ascribed value _ => value.unwrapped
  | expression => expression

/-- The comparison seen from its other side. -/
def CmpOp.flip : CmpOp → CmpOp
  | .eq => .eq
  | .ne => .ne
  | .gt => .lt
  | .gte => .lte
  | .lt => .gt
  | .lte => .gte

/-- A field compared with a literal, with the field on the left. -/
def simpleIndexComparison : BoolExpression → Option (String × CmpOp × Value)
  | .compare left op right _ =>
    if op = .ne then none
    else
      match left.unwrapped with
      | .reference path =>
        match right.unwrapped with
        | .literal value => some (path, op, value)
        | _ => none
      | .literal value =>
        match right.unwrapped with
        | .reference path => some (path, op.flip, value)
        | _ => none
      | _ => none
  | _ => none

end UnionId
