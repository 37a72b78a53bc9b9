import UnionId.Model.Coerce

/-!
# Match patterns

Patterns of match branches: how they are bound to the variants of their source type
before any row is read, and how a bound pattern takes a value apart. Binding fills in
the stable tag of every constructor and collects the typed names that a branch may
use; the matcher only looks at tags.
-/
namespace UnionId.Matching

open Lib

/-- The identity of a constructor. -/
inductive MatchTag where
  | variant (id : UInt64)
  | none
  | some
  deriving DecidableEq, Repr

/-- The payload of a constructor pattern, over any pattern type. -/
inductive PayloadOf (π : Type) where
  | unit
  | record (fields : List (String × π)) (rest : Bool)
  | positional (patterns : List π)

inductive MatchPattern where
  | wildcard
  | binding (name : String)
  | constructor (name : String) (payload : PayloadOf MatchPattern) (tag : Option MatchTag)
  | record (fields : List (String × MatchPattern)) (rest : Bool)
  | tuple (patterns : List MatchPattern)

abbrev MatchPayload := PayloadOf MatchPattern

/-- What can be matched. -/
inductive MatchSource where
  | enum (variants : List EnumVariantDef)
  | option (inner : ScalarType)

def fails {α : Type} (message : String) : Result α := fail .E_MATCH message

def matchSource (catalog : Catalog) (ty : ScalarType) (name : String) : Result MatchSource := do
  match ← catalog.underlying ty with
  | .enum variants => pure (.enum variants)
  | .option inner => pure (.option inner)
  | _ => fail .E_TYPE ("match source '" ++ name ++ "' must be a sum type or option" : String)

/-! ## Constructors -/

/-- A qualifier names an enumeration with the same variants. -/
def qualifierMatchesEnum (catalog : Catalog) (qualifier : String)
    (expected : List EnumVariantDef) : Result Bool :=
  match catalog.types[qualifier]? with
  | none => fails ("unknown type qualifier '" ++ qualifier ++ "'")
  | some definition => do
    match ← catalog.underlying definition.ty with
    | .enum actual => pure (actual.length = expected.length &&
        (actual.zip expected).all fun (actual, expected) => actual.id = expected.id)
    | _ => pure false

/-- The variant name without its qualifier, which must fit. -/
def unqualified (catalog : Catalog) (variants : List EnumVariantDef) (sourceName name : String) :
    Result String :=
  match rsplitOnce '.' name with
  | none => pure name
  | some (qualifier, variantName) => do
    if ← qualifierMatchesEnum catalog qualifier variants then pure variantName
    else fails ("pattern '" ++ name ++ "' belongs to a different type than '" ++ sourceName ++ "'")

/-- The tag of a constructor, the types of its arguments, and its plain name. -/
def resolveConstructor (catalog : Catalog) (source : MatchSource) (sourceName name : String) :
    Result (MatchTag × List ScalarType × String) :=
  match source with
  | .enum variants => do
    let variantName ← unqualified catalog variants sourceName name
    match variants.find? fun variant => variant.name = variantName with
    | some variant => pure (.variant variant.id, variant.args, variant.name)
    | none => fails ("unknown variant '" ++ name ++ "' for '" ++ sourceName ++ "'")
  | .option inner =>
    if name = "None" then pure (.none, [], "None")
    else if name = "Some" then pure (.some, [inner], "Some")
    else fails ("unknown option constructor '" ++ name ++ "' for '" ++ sourceName ++ "'")

/-! ## Binding -/

/-- Add the names of one part; no name may occur twice. -/
def addBindings (seen : List Column) : List Column → Result (List Column)
  | [] => pure seen
  | binding :: rest =>
    if binding.name ∈ seen.map (fun c => c.name) then
      fails ("binding '" ++ binding.name ++ "' is declared more than once")
    else addBindings (seen ++ [binding]) rest

def combinePatterns (infos : List (List Column)) : Result (List Column) :=
  infos.foldlM addBindings []

/-- Without `..`, every field must be named. -/
def checkOmitted (definitions : List Column) (context : String) (rest : Bool)
    (seen : List String) : Result Unit :=
  if rest then pure ()
  else
    match (definitions.filter fun field => field.name ∉ seen).map fun field => field.name with
    | [] => pure ()
    | missing => fails ("record pattern for " ++ context ++ " omits " ++
        String.intercalate ", " missing ++ "; add '..' to ignore them")

def unknownPatternField (context field : String) (constructorPayload : Bool) : String :=
  if constructorPayload then context ++ " has no payload field '" ++ field ++ "'"
  else context ++ " has no field '" ++ field ++ "'"

def argumentContext (constructor : String) (index : ℕ) : String :=
  "argument " ++ toString (index + 1) ++ " of constructor '" ++ constructor ++ "'"

def itemContext (context : String) (index : ℕ) : String :=
  "tuple item " ++ toString (index + 1) ++ " of " ++ context

mutual
/-- Bind a pattern to a type: the pattern with its tags, and the names it binds. -/
def bindNestedPattern (catalog : Catalog) :
    MatchPattern → ScalarType → String → Result (MatchPattern × List Column)
  | .wildcard, _, _ => pure (.wildcard, [])
  | .binding name, expected, _ =>
    pure (.binding name, [{ name, ty := expected, default := none, id := 0 }])
  | .constructor name payload _, expected, context => do
    let source ← matchSource catalog expected context
    let (tag, argumentTypes, displayName) ← resolveConstructor catalog source context name
    let (payload, bindings) ← bindPayload catalog payload displayName argumentTypes
    pure (.constructor name payload (some tag), bindings)
  | .record fields rest, expected, context => do
    match ← catalog.underlying expected with
    | .record definitions => do
      let (fields, bindings) ← bindRecordFields catalog fields definitions rest context false []
      pure (.record fields rest, bindings)
    | _ => fails (context ++ " is not a record and cannot use a record pattern")
  | .tuple patterns, expected, context => do
    match ← catalog.underlying expected with
    | .tuple items =>
      if patterns.length ≠ items.length then
        fails ("tuple pattern for " ++ context ++ " expects " ++ toString items.length ++
          " item(s), got " ++ toString patterns.length)
      else do
        let (patterns, infos) ← bindItems catalog patterns items (itemContext context) 0
        let bindings ← combinePatterns infos
        pure (.tuple patterns, bindings)
    | _ => fails (context ++ " is not a tuple and cannot use a tuple pattern")

def bindPayload (catalog : Catalog) :
    PayloadOf MatchPattern → String → List ScalarType →
      Result (PayloadOf MatchPattern × List Column)
  | .unit, constructor, argumentTypes =>
    if argumentTypes.isEmpty then pure (.unit, [])
    else fails ("constructor '" ++ constructor ++ "' expects " ++ toString argumentTypes.length ++
      " payload binding(s)")
  | .record fields rest, constructor, argumentTypes =>
    match argumentTypes with
    | [payload] => do
      match ← catalog.underlying payload with
      | .record definitions => do
        let (fields, bindings) ← bindRecordFields catalog fields definitions rest
          ("constructor '" ++ constructor ++ "'") true []
        pure (.record fields rest, bindings)
      | _ => fails ("constructor '" ++ constructor ++ "' has no record payload")
    | _ => fails ("constructor '" ++ constructor ++
        "' has no record payload with exactly one argument")
  | .positional patterns, constructor, argumentTypes =>
    if patterns.length ≠ argumentTypes.length then
      fails ("constructor '" ++ constructor ++ "' expects " ++ toString argumentTypes.length ++
        " payload binding(s), got " ++ toString patterns.length)
    else do
      let (patterns, infos) ← bindItems catalog patterns argumentTypes
        (argumentContext constructor) 0
      let bindings ← combinePatterns infos
      pure (.positional patterns, bindings)

/-- Bind patterns to types, position by position. -/
def bindItems (catalog : Catalog) :
    List MatchPattern → List ScalarType → (ℕ → String) → ℕ →
      Result (List MatchPattern × List (List Column))
  | pattern :: patterns, ty :: types, label, index => do
    let (pattern, bindings) ← bindNestedPattern catalog pattern ty (label index)
    let (patterns, infos) ← bindItems catalog patterns types label (index + 1)
    pure (pattern :: patterns, bindings :: infos)
  | _, _, _, _ => pure ([], [])

/-- Bind the fields of a record pattern; `infos` holds the names and bindings of the
fields already done. -/
def bindRecordFields (catalog : Catalog) :
    List (String × MatchPattern) → List Column → Bool → String → Bool →
      List (String × List Column) → Result (List (String × MatchPattern) × List Column)
  | [], definitions, rest, context, _, infos => do
    checkOmitted definitions context rest (infos.map Prod.fst)
    let bindings ← combinePatterns (infos.map Prod.snd)
    pure ([], bindings)
  | (field, pattern) :: fields, definitions, rest, context, constructorPayload, infos =>
    if field ∈ infos.map Prod.fst then
      fails ("field '" ++ field ++ "' is bound more than once")
    else
      match Catalog.findColumn definitions field with
      | none => fails (unknownPatternField context field constructorPayload)
      | some definition => do
        let (pattern, bindings) ← bindNestedPattern catalog pattern definition.ty
          ("field '" ++ field ++ "' of " ++ context)
        let (fields, all) ← bindRecordFields catalog fields definitions rest context
          constructorPayload (infos ++ [(field, bindings)])
        pure ((field, pattern) :: fields, all)
end

/-! ## Matching -/

mutual
/-- Match a value against a bound pattern, adding to the bindings. -/
def matchValuePattern : MatchPattern → Value → Fields → Option Fields
  | .wildcard, _, bindings => some bindings
  | .binding name, value, bindings =>
    match bindings.lookup name with
    | none => some (assocInsert name value bindings)
    | some _ => none
  | .constructor _ payload tag, value, bindings =>
    match tag, value.unwrapped with
    | some (.variant expected), .enum _ args id =>
      if expected = id then matchPayload payload args bindings else none
    | some .none, .option none => matchPayload payload [] bindings
    | some .some, .option (some value) => matchPayload payload [value] bindings
    | _, _ => none
  | .record fields _, value, bindings =>
    match value.unwrapped with
    | .record record => matchFields fields record bindings
    | _ => none
  | .tuple patterns, value, bindings =>
    match value.unwrapped with
    | .tuple values => matchItems patterns values bindings
    | _ => none

def matchPayload : PayloadOf MatchPattern → List Value → Fields → Option Fields
  | .unit, values, bindings => if values.isEmpty then some bindings else none
  | .record fields _, values, bindings =>
    match values with
    | [value] =>
      match value.unwrapped with
      | .record record => matchFields fields record bindings
      | _ => none
    | _ => none
  | .positional patterns, values, bindings => matchItems patterns values bindings

/-- Match values position by position; the lengths must agree. -/
def matchItems : List MatchPattern → List Value → Fields → Option Fields
  | [], [], bindings => some bindings
  | pattern :: patterns, value :: values, bindings => do
    let bindings ← matchValuePattern pattern value bindings
    matchItems patterns values bindings
  | _, _, _ => none

def matchFields : List (String × MatchPattern) → Fields → Fields → Option Fields
  | [], _, bindings => some bindings
  | (field, pattern) :: fields, record, bindings => do
    let value ← record.lookup field
    let bindings ← matchValuePattern pattern value bindings
    matchFields fields record bindings
end

/-- The names that a pattern gives to the parts of a value. -/
def matchBindings (value : Value) (pattern : MatchPattern) : Option Fields :=
  matchValuePattern pattern value []

/-- The first branch that accepts a value, with its bindings. -/
def selectArm {α : Type} (value : Value) : List (MatchPattern × α) → Option (α × Fields)
  | [] => none
  | (pattern, result) :: arms =>
    match matchBindings value pattern with
    | some bindings => some (result, bindings)
    | none => selectArm value arms

end UnionId.Matching
