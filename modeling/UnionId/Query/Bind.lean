import Mathlib.Data.Nat.Log
import UnionId.Query.Expression
import UnionId.Scalars.Decimal

/-!
# Binding expressions

Binding resolves the type of every expression against the columns in scope. It
brings literals to the type their context expects and records the types that
evaluation needs. `inferScalar` looks at an expression without rewriting it;
`bindScalar` rewrites it. A function call is checked from the results of its
arguments, so its rules are not part of the recursion.
-/
namespace UnionId

open Lib Catalog

/-! ## Types of literals -/

mutual
/-- Whether two types take the same values in an expression. Field identities,
defaults and variant names do not count. -/
def sameType : ScalarType → ScalarType → Bool
  | .int, .int | .float, .float | .bool, .bool | .text, .text | .uuid, .uuid | .date, .date
  | .timestamp, .timestamp | .duration, .duration | .bytes, .bytes => true
  | .decimal p s, .decimal p' s' => p = p' && s = s'
  | .ref l, .ref r => l = r
  | .option l, .option r | .list l, .list r | .map l, .map r => sameType l r
  | .tuple l, .tuple r => sameTypes l r
  | .record l, .record r => sameColumns l r
  | .enum l, .enum r => sameVariants l r
  | _, _ => false

def sameTypes : List ScalarType → List ScalarType → Bool
  | [], [] => true
  | l :: ls, r :: rs => sameType l r && sameTypes ls rs
  | _, _ => false

def sameColumns : List (ColumnOf ScalarType) → List (ColumnOf ScalarType) → Bool
  | [], [] => true
  | ⟨name, ty, _, _⟩ :: ls, r :: rs => name = r.name && sameType ty r.ty && sameColumns ls rs
  | _, _ => false

def sameVariants : List (VariantOf ScalarType) → List (VariantOf ScalarType) → Bool
  | [], [] => true
  | ⟨_, args, id⟩ :: ls, r :: rs => id = r.id && sameTypes args r.args && sameVariants ls rs
  | _, _ => false
end

/-- The digits of the coefficient, at least as many as the scale. -/
def Decimal.precision (d : Decimal) : ℕ := max (Nat.log 10 d.coefficient.natAbs + 1) d.scale

/-- The element type of a list literal whose elements agree. -/
def listElement : List (Option ScalarType) → Option ScalarType
  | some first :: rest =>
    if rest.all fun ty => ty.any (sameType first) then some first else none
  | _ => none

mutual
/-- The type a literal shows by itself. -/
def inferLiteral : Value → Option ScalarType
  | .int _ => some .int
  | .float _ => some .float
  | .bool _ => some .bool
  | .text _ => some .text
  | .uuid _ => some .uuid
  | .date _ => some .date
  | .timestamp _ => some .timestamp
  | .duration _ => some .duration
  | .bytes _ => some .bytes
  | .decimal value => some (.decimal value.precision value.scale)
  | .named typeId _ => some (.ref typeId)
  | .tuple items => (inferLiterals items).allSome.map .tuple
  | .list items => (listElement (inferLiterals items)).map .list
  | _ => none

def inferLiterals : List Value → List (Option ScalarType)
  | [] => []
  | value :: values => inferLiteral value :: inferLiterals values
end

/-! ## Requirements on types -/

def requireBool (catalog : Catalog) (ty : ScalarType) (context : String) : Result Unit := do
  match ← catalog.underlying ty with
  | .bool => pure ()
  | _ => fail .E_TYPE (context ++ " must be bool, got " ++ Message.type ty)

def requireNumeric (catalog : Catalog) (ty : ScalarType) (context : String) : Result Unit := do
  match ← catalog.underlying ty with
  | .int | .float | .decimal .. => pure ()
  | _ => fail .E_TYPE (context ++ " expects int or float, or a fixed decimal, got " ++
      Message.type ty)

def requireNegatable (catalog : Catalog) (ty : ScalarType) (context : String) : Result Unit := do
  match ← catalog.underlying ty with
  | .int | .float | .duration | .decimal .. => pure ()
  | _ => fail .E_TYPE (context ++
      " expects int or float, duration, or a fixed decimal, got " ++ Message.type ty)

def requireTimestampInput (catalog : Catalog) (ty : ScalarType) : Result Unit := do
  match ← catalog.underlying ty with
  | .timestamp => pure ()
  | _ => fail .E_TYPE "temporal projection expects timestamp input"

def requireTextConvertible (catalog : Catalog) (ty : ScalarType) : Result Unit := do
  match ← catalog.underlying ty with
  | .int | .float | .bool | .text | .uuid | .date | .timestamp | .duration | .decimal .. | .bytes =>
    pure ()
  | _ => fail .E_TYPE "to_text expects a scalar; project or match compound ADTs explicitly"

def requireDecimal (catalog : Catalog) (name : String) (ty : ScalarType) (input : String) :
    Result Unit := do
  match ← catalog.underlying ty with
  | .decimal .. => pure ()
  | _ => fail .E_TYPE (name ++ " expects decimal " ++ input : String)

def requireMeasurable (catalog : Catalog) (ty : ScalarType) : Result Unit := do
  match ← catalog.underlying ty with
  | .list _ | .map _ | .text | .bytes => pure ()
  | _ => fail .E_TYPE ("length expects a list, map, text, or bytes, got " ++ Message.type ty)

def typeMismatch (actual expected : ScalarType) : Error :=
  { code := .E_TYPE, message :=
    "expression has type " ++ Message.type actual ++ ", expected " ++ Message.type expected }

/-- The type must be the one the context expects. -/
def requireExpected (ty : ScalarType) (expected : Option ScalarType) : Result Unit :=
  match expected with
  | some e => if sameType ty e then pure () else throw (typeMismatch ty e)
  | none => pure ()

/-- A computed primitive may also initialise a named type over it. -/
def requireFreshScalarResult (catalog : Catalog) (actual : ScalarType)
    (expected : Option ScalarType) : Result Unit :=
  match expected with
  | some e => do
    if sameType actual (← catalog.underlying e) then pure () else throw (typeMismatch actual e)
  | none => pure ()

/-- A requirement on a type that may still be unknown. -/
def whenInferred (require : ScalarType → Result Unit) (ty : Option ScalarType) : Result Unit :=
  match ty with
  | some ty => require ty
  | none => pure ()

def orInferred {α : Type} (message : String) : Option α → Result α
  | some a => pure a
  | none => fail .E_TYPE message

def orderable (catalog : Catalog) (ty : ScalarType) : Result Bool :=
  match ty with
  | .ref id => do
    let _ ← catalog.definition id
    pure true
  | .named _ => pure false
  | _ => pure true

def referenceType (catalog : Catalog) (scope : List Column) (path referenceKind : String) :
    Result ScalarType :=
  match catalog.fieldType scope path with
  | .ok ty => pure ty
  | .error error =>
    if referenceKind = "match binding" ∧ error.code = .E_FIELD then
      fail .E_MATCH ("unknown match binding '" ++ path ++ "'" : String)
    else throw error

/-! ## Built-in functions -/

def isTextPredicate (name : String) : Bool := name ∈ ["starts_with", "ends_with", "contains_text"]

def isTemporalProjection (name : String) : Bool := name ∈ ["date_of", "timestamp_trunc"]

def isDecimalFunction (name : String) : Bool :=
  name ∈ ["int_to_decimal", "decimal_parse", "decimal_rescale", "decimal_round", "decimal_mul",
    "decimal_div"]

def isBinaryDecimalFunction (name : String) : Bool := name ∈ ["decimal_mul", "decimal_div"]

/-- How many arguments a built-in function takes. -/
def builtinScalarArity (name : String) : ℕ :=
  if name ∈ ["contains_key", "get", "concat", "float_to_int", "date_of"] ||
    isTextPredicate name then 2
  else if name ∈ ["keys", "values", "entries"] then 1
  else if name ∈ ["int_to_decimal", "decimal_parse", "decimal_rescale", "substring",
      "timestamp_trunc"] then 3
  else if name = "decimal_round" then 4
  else if isBinaryDecimalFunction name then 5
  else 1

def requireArity (name : String) (arguments : ℕ) : Result Unit :=
  if arguments ≠ builtinScalarArity name then
    fail .E_TYPE (name ++ " expects " ++ toString (builtinScalarArity name) ++ " arguments, got " ++
      toString arguments : String)
  else pure ()

def mapScalarResult (name : String) (valueTy : ScalarType) : Result ScalarType :=
  if name = "contains_key" then pure .bool
  else if name = "get" then pure (.option valueTy)
  else if name = "keys" then pure (.list .text)
  else if name = "values" then pure (.list valueTy)
  else if name = "entries" then pure (.list (.tuple [.text, valueTy]))
  else fail .E_QUERY ("unknown map scalar function '" ++ name ++ "'" : String)

def mapValueType (catalog : Catalog) (name : String) (mapTy : ScalarType) : Result ScalarType := do
  match ← catalog.underlying mapTy with
  | .map valueTy => pure valueTy
  | _ => fail .E_TYPE (name ++ " expects a map, got " ++ Message.type mapTy)

def builtinScalarResult (name : String) : Option ScalarType :=
  if name = "int_to_float" then some .float
  else if name = "float_to_int" then some .int
  else if isTextPredicate name then some .bool
  else if name ∈ ["lower", "upper", "trim", "concat", "substring", "to_text"] then some .text
  else if name = "uuid_parse" then some .uuid
  else if name = "bytes_parse_hex" then some .bytes
  else if name = "date_parse" then some .date
  else if name = "timestamp_parse" then some .timestamp
  else if name = "duration_parse" then some .duration
  else none

def builtinScalarInputType (name : String) (position : ℕ) : ScalarType :=
  if name = "float_to_int" ∧ position = 0 then .float
  else if name = "substring" ∧ position > 0 ∨ name = "int_to_float" then .int
  else .text

def temporalResultType (name : String) : ScalarType :=
  if name = "date_of" then .date else .timestamp

/-- A literal precision or scale. -/
def decimalLiteral (part : String) : ScalarExpression → Result ℕ
  | .literal (.int value) =>
    if 0 ≤ value.toInt ∧ value.toInt < 256 then pure value.toInt.toNat
    else fail .E_DECIMAL_TYPE ("decimal " ++ part ++ " is out of range" : String)
  | _ => fail .E_DECIMAL_TYPE ("decimal " ++ part ++ " must be an integer literal" : String)

def decimalTarget (precision scale : ScalarExpression) : Result ScalarType := do
  let precision ← decimalLiteral "precision" precision
  let scale ← decimalLiteral "scale" scale
  validateDecimalType precision scale
  pure (.decimal precision scale)

/-- The target type of a decimal function, from the arguments behind its inputs. -/
def decimalFunctionTarget (name : String) (arguments : List ScalarExpression) : Result ScalarType :=
  match arguments.drop (if isBinaryDecimalFunction name then 2 else 1) with
  | precision :: scale :: _ => decimalTarget precision scale
  | _ => fail .E_INTERNAL "bound decimal function arity"

/-! ## Inference -/

/-- A literal or a call of built-in functions on literals. -/
def ScalarExpression.isConstant : ScalarExpression → Bool
  | .literal _ | .parameter .. => true
  | .reference _ => false
  | .call name arguments => isBuiltinScalarFunction name && allConstant arguments
  | .ascribed value _ | .length value | .negate value _ => value.isConstant
  | .arithmetic left _ right _ => left.isConstant && right.isConstant
where allConstant : List ScalarExpression → Bool
  | [] => true
  | argument :: arguments => argument.isConstant && allConstant arguments

/-- Operand and result types of arithmetic on durations and timestamps. -/
def temporalSignature (expected : Option ScalarType) :
    Option ScalarType → ArithmeticOp → Option ScalarType →
      Option (ScalarType × ScalarType × ScalarType)
  | some .duration, .add, some .duration | some .duration, .subtract, some .duration
  | some .duration, .add, none | some .duration, .subtract, none =>
    some (.duration, .duration, .duration)
  | some .timestamp, .add, some .duration | some .timestamp, .subtract, some .duration =>
    some (.timestamp, .duration, .timestamp)
  | some .timestamp, .subtract, some .timestamp => some (.timestamp, .timestamp, .duration)
  | none, .add, some .duration | none, .subtract, some .duration =>
    match expected with
    | some .duration => some (.duration, .duration, .duration)
    | _ => none
  | some .timestamp, .add, none | some .timestamp, .subtract, none =>
    match expected with
    | some .timestamp => some (.timestamp, .duration, .timestamp)
    | _ => none
  | none, .subtract, some .timestamp =>
    match expected with
    | some .duration => some (.timestamp, .timestamp, .duration)
    | _ => none
  | _, _, _ => none

def isTemporal : Option ScalarType → Bool
  | some .timestamp | some .duration => true
  | _ => false

def underlyingOf (catalog : Catalog) : Option ScalarType → Result (Option ScalarType)
  | some ty => return some (← catalog.underlying ty)
  | none => pure none

def temporalArithmeticSignature (catalog : Catalog) (left : Option ScalarType) (op : ArithmeticOp)
    (right expected : Option ScalarType) :
    Result (Option (ScalarType × ScalarType × ScalarType)) := do
  let leftKind ← underlyingOf catalog left
  let rightKind ← underlyingOf catalog right
  let expectedKind ← underlyingOf catalog expected
  match temporalSignature expectedKind leftKind op rightKind with
  | some signature => pure (some signature)
  | none =>
    if isTemporal leftKind || isTemporal rightKind then
      fail .E_TYPE "unsupported timestamp/duration arithmetic"
    else pure none

/-- The type two operands agree on; a constant adapts to the other side. -/
def commonOperandType (left right : ScalarExpression) :
    Option ScalarType → Option ScalarType → Result (Option ScalarType)
  | some l, some r =>
    if sameType l r then pure (some l)
    else if left.isConstant then pure (some r)
    else if right.isConstant then pure (some l)
    else fail .E_TYPE ("arithmetic operands have different types: " ++ Message.type l ++ " and " ++
      Message.type r)
  | some l, none => pure (some l)
  | none, r => pure r

def requireArithmetic (catalog : Catalog) (op : ArithmeticOp) (ty : ScalarType) : Result Unit := do
  let scaled := op = .multiply || op = .divide
  match ← catalog.underlying ty with
  | .duration | .decimal .. =>
    if scaled then fail .E_TYPE "duration and decimal only support '+' and '-'"
    else requireNumeric catalog ty "arithmetic"
  | _ => requireNumeric catalog ty "arithmetic"

def inferArithmeticType (catalog : Catalog) (left : ScalarExpression) (op : ArithmeticOp)
    (right : ScalarExpression) (leftTy rightTy : Option ScalarType) :
    Result (Option ScalarType) := do
  let result ← commonOperandType left right leftTy rightTy
  whenInferred (requireArithmetic catalog op) result
  pure result

/-- The inferred types of arguments, none of them demanded yet. -/
abbrev Inferred := List (Result (Option ScalarType))

def inferMapCall (catalog : Catalog) (name : String) : Inferred → Result (Option ScalarType)
  | [] => fail .E_INTERNAL "bound map function arity"
  | map :: keys => do
    match ← map with
    | none =>
      pure (if name = "contains_key" then some .bool
        else if name = "keys" then some (.list .text) else none)
    | some mapTy => do
      let valueTy ← mapValueType catalog name mapTy
      keys.forM fun key => do
        whenInferred (fun ty => if sameType ty .text then pure ()
          else fail .E_TYPE (name ++ " expects a text key" : String)) (← key)
      return some (← mapScalarResult name valueTy)

def inferDecimalCall [Builtins] (catalog : Catalog) (name : String)
    (arguments : List ScalarExpression)
    (inferred : Inferred) : Result (Option ScalarType) := do
  if name = "int_to_decimal" then
    (inferred.take 1).forM fun input => do
      whenInferred (fun ty => if sameType ty .int then pure ()
        else fail .E_TYPE "int_to_decimal expects int input") (← input)
  else if name ≠ "decimal_parse" then
    (inferred.take (if isBinaryDecimalFunction name then 2 else 1)).forM fun input => do
      whenInferred (requireDecimal catalog name · "input") (← input)
  Builtins.checkArguments name arguments
  return some (← decimalFunctionTarget name arguments)

/-- The arguments of an ordinary function against its input types. -/
def checkInputTypes (name : String) : ℕ → Inferred → Result Unit
  | _, [] => pure ()
  | position, argument :: arguments => do
    whenInferred (fun ty => if sameType ty (builtinScalarInputType name position) then pure ()
      else fail .E_TYPE (name ++ (" argument " ++ toString (position + 1) ++
        " expects " : String) ++
        Message.type (builtinScalarInputType name position))) (← argument)
    checkInputTypes name (position + 1) arguments

def inferCall [Builtins] (catalog : Catalog) (name : String) (arguments : List ScalarExpression)
    (inferred : Inferred) : Result (Option ScalarType) :=
  if isMapScalarFunction name then do
    requireArity name arguments.length
    inferMapCall catalog name inferred
  else if isTemporalProjection name then do
    Builtins.checkArguments name arguments
    (inferred.take 1).forM fun input => do whenInferred (requireTimestampInput catalog) (← input)
    pure (some (temporalResultType name))
  else if name = "to_text" then
    match inferred with
    | [input] => do
      whenInferred (requireTextConvertible catalog) (← input)
      pure (some .text)
    | _ => fail .E_TYPE "to_text expects 1 argument"
  else if isDecimalFunction name then do
    requireArity name arguments.length
    inferDecimalCall catalog name arguments inferred
  else if isBuiltinScalarFunction name then do
    requireArity name arguments.length
    Builtins.checkArguments name arguments
    checkInputTypes name 0 inferred
    pure (builtinScalarResult name)
  else
    fail .E_QUERY ("local function '" ++ name ++
      "' was not expanded before type inference" : String)

section
variable [Builtins] (catalog : Catalog) (scope : List Column) (referenceKind : String)

mutual
/-- The type an expression has by itself, if that is known. -/
def inferScalar : ScalarExpression → Result (Option ScalarType)
  | .reference path => return some (← referenceType catalog scope path referenceKind)
  | .parameter _ ty => pure ty
  | .literal value => pure (inferLiteral value)
  | .ascribed _ ty => pure (some ty)
  | .call name arguments => inferCall catalog name arguments (inferences arguments)
  | .length value => do
    whenInferred (requireMeasurable catalog) (← inferScalar value)
    pure (some .int)
  | .negate value _ => do
    let ty ← inferScalar value
    whenInferred (requireNegatable catalog · "unary '-'") ty
    pure ty
  | .arithmetic left op right _ => do
    let leftTy ← inferScalar left
    let rightTy ← inferScalar right
    match ← temporalArithmeticSignature catalog leftTy op rightTy none with
    | some signature => pure (some signature.2.2)
    | none => inferArithmeticType catalog left op right leftTy rightTy

def inferences : List ScalarExpression → Inferred
  | [] => []
  | argument :: arguments => inferScalar argument :: inferences arguments
end

end

/-! ## Binding -/

/-- A bound expression with its type. -/
abbrev BoundScalar := ScalarExpression × ScalarType

/-- How each argument binds under the type expected of it. -/
abbrev Binders := List (Option ScalarType → Result BoundScalar)

/-- Bind the leading arguments, each under its own expected type. -/
def bindArguments (arguments : List ScalarExpression) : Binders → List ScalarType →
    Result (List ScalarExpression)
  | binder :: binders, ty :: types => do
    let (argument, _) ← binder (some ty)
    let rest ← bindArguments (arguments.drop 1) binders types
    pure (argument :: rest)
  | _, _ => pure arguments

def bindMapCall (catalog : Catalog) (name : String) (arguments : List ScalarExpression)
    (inferred : Inferred) (binders : Binders) : Result BoundScalar :=
  match inferred with
  | [] => fail .E_INTERNAL "bound map function arity"
  | map :: _ => do
    let mapTy ← orInferred ("cannot infer " ++ name ++ " map type") (← map)
    let valueTy ← mapValueType catalog name mapTy
    let arguments ← bindArguments arguments binders [mapTy, .text]
    return (.call name arguments, ← mapScalarResult name valueTy)

/-- The type of a decimal operand, which must be known. -/
def decimalOperand (catalog : Catalog) (name subject input : String) (ty : Option ScalarType) :
    Result ScalarType := do
  let ty ← orInferred ("cannot infer " ++ name ++ " " ++ subject) ty
  requireDecimal catalog name ty input
  pure ty

def decimalInput (catalog : Catalog) (name : String) (inferred : Result (Option ScalarType)) :
    Result ScalarType :=
  if name = "int_to_decimal" then pure .int
  else if name = "decimal_parse" then pure .text
  else do decimalOperand catalog name "input" "input" (← inferred)

/-- The second operand of a decimal product or quotient. -/
def bindDecimalRight (catalog : Catalog) (name : String) (arguments : List ScalarExpression)
    (inferred : Inferred) (binders : Binders) : Result (List ScalarExpression) :=
  if isBinaryDecimalFunction name then
    match inferred with
    | [] => pure arguments
    | right :: _ => do
      let ty ← decimalOperand catalog name "right input" "inputs" (← right)
      bindArguments arguments binders [ty]
  else pure arguments

def bindDecimalCall [Builtins] (catalog : Catalog) (expected : Option ScalarType) (name : String)
    (arguments : List ScalarExpression) (inferred : Inferred) (binders : Binders) :
    Result BoundScalar := do
  let target ← decimalFunctionTarget name arguments
  Builtins.checkArguments name arguments
  let input ← decimalInput catalog name (inferred.headD (pure none))
  let head ← bindArguments (arguments.take 1) (binders.take 1) [input]
  let rest ← bindDecimalRight catalog name (arguments.drop 1) (inferred.drop 1) (binders.drop 1)
  requireFreshScalarResult catalog target expected
  pure (.call name (head ++ rest), target)

def bindTemporalCall [Builtins] (catalog : Catalog) (expected : Option ScalarType) (name : String)
    (arguments : List ScalarExpression) (inferred : Inferred) (binders : Binders) :
    Result BoundScalar := do
  Builtins.checkArguments name arguments
  let input := (← inferred.headD (pure none)).getD .timestamp
  requireTimestampInput catalog input
  let arguments ← bindArguments arguments binders [input]
  requireFreshScalarResult catalog (temporalResultType name) expected
  pure (.call name arguments, temporalResultType name)

def bindToText (catalog : Catalog) (arguments : List ScalarExpression) (inferred : Inferred)
    (binders : Binders) : Result BoundScalar :=
  match inferred with
  | [input] => do
    let input ← orInferred
      "cannot infer to_text input; use a typed field or typed local function" (← input)
    requireTextConvertible catalog input
    let arguments ← bindArguments arguments binders [input]
    pure (.call "to_text" arguments, .text)
  | _ => fail .E_TYPE "to_text expects 1 argument"

/-- The type of a call must be the expected one. -/
def expecting (expected : Option ScalarType) (bound : Result BoundScalar) : Result BoundScalar := do
  let (expression, ty) ← bound
  requireExpected ty expected
  pure (expression, ty)

def bindCall [Builtins] (catalog : Catalog) (expected : Option ScalarType) (name : String)
    (arguments : List ScalarExpression) (inferred : Inferred) (binders : Binders) :
    Result BoundScalar :=
  if isMapScalarFunction name then
    expecting expected do
      requireArity name arguments.length
      bindMapCall catalog name arguments inferred binders
  else if isTemporalProjection name then
    bindTemporalCall catalog expected name arguments inferred binders
  else if name = "to_text" then
    expecting expected (bindToText catalog arguments inferred binders)
  else if isDecimalFunction name then do
    requireArity name arguments.length
    bindDecimalCall catalog expected name arguments inferred binders
  else if isBuiltinScalarFunction name then
    expecting expected do
      requireArity name arguments.length
      Builtins.checkArguments name arguments
      let types := (List.range arguments.length).map (builtinScalarInputType name)
      let arguments ← bindArguments arguments binders types
      let ty ← orInferred "known builtin" (builtinScalarResult name)
      pure (.call name arguments, ty)
  else
    fail .E_QUERY
      ("local function '" ++ name ++ "' was not expanded before type checking" : String)

section
variable [Builtins] (catalog : Catalog) (scope : List Column) (referenceKind : String)

mutual
/-- Resolve an expression under the type its context expects. -/
def bindScalar : ScalarExpression → Option ScalarType → Result BoundScalar
  | .reference path, expected => do
    let ty ← referenceType catalog scope path referenceKind
    requireExpected ty expected
    pure (.reference path, ty)
  | .parameter name ty, expected =>
    match expected.or ty with
    | some ty => do
      requireExpected ty expected
      pure (.parameter name (some ty), ty)
    | none => fail .E_TYPE ("cannot infer parameter '$" ++ name ++
        "' type; compare it with a typed field or value" : String)
  | .literal value, expected =>
    match expected with
    | some ty => do
      let value ← catalog.coerce value ty "expression literal"
      requireExpected ty expected
      pure (.literal value, ty)
    | none => do
      let ty ← orInferred "cannot infer the type of this literal without a typed field"
        (inferLiteral value)
      pure (.literal value, ty)
  | .ascribed value ty, expected => do
    let (value, _) ← bindScalar value (some ty)
    requireExpected ty expected
    pure (.ascribed value ty, ty)
  | .call name arguments, expected =>
    bindCall catalog expected name arguments (inferences catalog scope referenceKind arguments)
      (binders arguments)
  | .length value, expected => do
    let (value, ty) ← bindScalar value none
    requireMeasurable catalog ty
    requireExpected .int expected
    pure (.length value, .int)
  | .negate value _, expected => do
    let inferred ← inferScalar catalog scope referenceKind value
    let result ← orInferred
      "cannot infer unary '-' operand type; use an int, float, or duration value"
      (expected.or inferred)
    requireNegatable catalog result "unary '-'"
    let (value, _) ← bindScalar value (some result)
    requireExpected result expected
    pure (.negate value (some result), result)
  | .arithmetic left op right _, expected => do
    let leftTy ← inferScalar catalog scope referenceKind left
    let rightTy ← inferScalar catalog scope referenceKind right
    match ← temporalArithmeticSignature catalog leftTy op rightTy expected with
    | some (leftTy, rightTy, result) => do
      let (left, _) ← bindScalar left (some leftTy)
      let (right, _) ← bindScalar right (some rightTy)
      requireFreshScalarResult catalog result expected
      pure (.arithmetic left op right (some result), result)
    | none => do
      let inferred ← inferArithmeticType catalog left op right leftTy rightTy
      let result ← orInferred "cannot infer arithmetic operand type; use int or float values"
        (expected.or inferred)
      requireNumeric catalog result "arithmetic"
      let (left, _) ← bindScalar left (some result)
      let (right, _) ← bindScalar right (some result)
      requireExpected result expected
      pure (.arithmetic left op right (some result), result)

def binders : List ScalarExpression → Binders
  | [] => []
  | argument :: arguments => bindScalar argument :: binders arguments
end

end

/-! ## Conditions -/

section
variable [Builtins] (catalog : Catalog)

def requireSameOperands (left right : ScalarType) : Result Unit :=
  if sameType left right then pure ()
  else fail .E_TYPE ("comparison operands have different types: " ++ Message.type left ++ " and " ++
    Message.type right)

/-- Every type has equality; an ordered comparison needs an ordering. -/
def requireOrderable (op : CmpOp) (ty : ScalarType) : Result Unit :=
  match op with
  | .eq | .ne => pure ()
  | _ => do
    if ← orderable catalog ty then pure ()
    else fail .E_TYPE ("type '" ++ Message.type ty ++ "' has no ordering")

/-- Both sides of a comparison take the type of the side that is not constant. -/
def bindCompare (scope : List Column) (referenceKind : String)
    (left : ScalarExpression) (op : CmpOp)
    (right : ScalarExpression) : Result BoolExpression := do
  let leftTy ← inferScalar catalog scope referenceKind left
  let rightTy ← inferScalar catalog scope referenceKind right
  let expected ← orInferred "cannot infer comparison operand type; compare a field or typed value"
    (if left.isConstant then rightTy.or leftTy else leftTy.or rightTy)
  let (left, leftTy) ← bindScalar catalog scope referenceKind left (some expected)
  let (right, rightTy) ← bindScalar catalog scope referenceKind right (some expected)
  requireSameOperands leftTy rightTy
  requireOrderable catalog op leftTy
  pure (.compare left op right (some leftTy))

def containsTypes (collectionTy : Option ScalarType) (item : Result (Option ScalarType)) :
    Result (ScalarType × ScalarType) :=
  match collectionTy with
  | some ty => do
    match ← catalog.underlying ty with
    | .list itemTy => pure (ty, itemTy)
    | .bytes => pure (ty, .bytes)
    | _ => fail .E_TYPE ("contains expects a list or bytes, got " ++ Message.type ty)
  | none => do
    let itemTy ← orInferred "cannot infer contains element type from two untyped values" (← item)
    pure (.list itemTy, itemTy)

def bindContains (scope : List Column) (referenceKind : String)
    (collection item : ScalarExpression) : Result BoolExpression := do
  let inferred ← inferScalar catalog scope referenceKind collection
  let (collectionTy, itemTy) ← containsTypes catalog inferred
    (inferScalar catalog scope referenceKind item)
  let (collection, _) ← bindScalar catalog scope referenceKind collection (some collectionTy)
  let (item, _) ← bindScalar catalog scope referenceKind item (some itemTy)
  pure (.contains collection item)

/-- The element type of a collection, if its type is known. -/
def elementType (collectionTy : Option ScalarType) : Result (Option ScalarType) :=
  match collectionTy with
  | none => pure none
  | some ty => do
    match ← catalog.underlying ty with
    | .list itemTy => pure (some itemTy)
    | _ => fail .E_TYPE ("'in' expects a list on the right, got " ++ Message.type ty)

/-- A collection that takes its type from the item. -/
def ScalarExpression.isContextual : ScalarExpression → Bool
  | .literal _ | .parameter _ none => true
  | _ => false

def bindMembership (scope : List Column) (referenceKind : String)
    (item collection : ScalarExpression) (negated : Bool) : Result BoolExpression := do
  let inferredItem ← inferScalar catalog scope referenceKind item
  let inferredCollection ← inferScalar catalog scope referenceKind collection
  let element ← elementType catalog inferredCollection
  let itemTy ← orInferred "cannot infer 'in' element type from two untyped values"
    (if collection.isContextual then inferredItem.or element else element.or inferredItem)
  let collectionTy := if collection.isContextual then .list itemTy
    else inferredCollection.getD (.list itemTy)
  let (item, _) ← bindScalar catalog scope referenceKind item (some itemTy)
  let (collection, _) ← bindScalar catalog scope referenceKind collection (some collectionTy)
  pure (.membership item collection negated)

/-- The scope of a condition on list elements. -/
def bindElements (scope : List Column) (referenceKind : String) (collection : ScalarExpression)
    (binding : String) : Result (ScalarExpression × List Column) := do
  let (collection, ty) ← bindScalar catalog scope referenceKind collection none
  match ← catalog.underlying ty with
  | .list itemTy => pure (collection, ⟨binding, itemTy, none, 0⟩ :: scope)
  | _ => fail .E_TYPE ("list element predicate expects a list, got " ++ Message.type ty)

def bindOption (scope : List Column) (referenceKind : String) (value : ScalarExpression) :
    Result ScalarExpression := do
  let (value, ty) ← bindScalar catalog scope referenceKind value none
  match ← catalog.underlying ty with
  | .option _ => pure value
  | _ => fail .E_TYPE ("option predicate expects an option, got " ++ Message.type ty)

/-- Resolve a condition against the columns in scope. -/
def bindInScope (scope : List Column) (referenceKind conditionKind : String) :
    BoolExpression → Result BoolExpression
  | .value value => do
    let (value, ty) ← bindScalar catalog scope referenceKind value none
    requireBool catalog ty conditionKind
    pure (.value value)
  | .compare left op right _ => bindCompare catalog scope referenceKind left op right
  | .contains collection item => bindContains catalog scope referenceKind collection item
  | .membership item collection negated =>
    bindMembership catalog scope referenceKind item collection negated
  | .any collection binding predicate => do
    let (collection, nested) ← bindElements catalog scope referenceKind collection binding
    let predicate ← bindInScope nested "list predicate binding" "list predicate condition" predicate
    pure (.any collection binding predicate)
  | .all collection binding predicate => do
    let (collection, nested) ← bindElements catalog scope referenceKind collection binding
    let predicate ← bindInScope nested "list predicate binding" "list predicate condition" predicate
    pure (.all collection binding predicate)
  | .isSome value => return .isSome (← bindOption catalog scope referenceKind value)
  | .isNone value => return .isNone (← bindOption catalog scope referenceKind value)
  | .not value => return .not (← bindInScope scope referenceKind conditionKind value)
  | .and left right => do
    let left ← bindInScope scope referenceKind conditionKind left
    let right ← bindInScope scope referenceKind conditionKind right
    pure (.and left right)
  | .or left right => do
    let left ← bindInScope scope referenceKind conditionKind left
    let right ← bindInScope scope referenceKind conditionKind right
    pure (.or left right)

/-- A filter condition. -/
def Expression.bind (scope : List Column) (expression : BoolExpression) : Result BoolExpression :=
  bindInScope catalog scope "field" "filter condition" expression

def bindDerive (scope : List Column) : BoolExpression → Result (BoolExpression × ScalarType)
  | .value value => do
    let (value, ty) ← bindScalar catalog scope "field" value none
    pure (.value value, ty)
  | expression => do
    let expression ← bindInScope catalog scope "field" "derived condition" expression
    pure (expression, .bool)

end

end UnionId
