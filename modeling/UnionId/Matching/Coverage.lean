import UnionId.Matching.Pattern
import UnionId.Lib.Limited
import UnionId.Lib.PatternMatrix

/-!
# Coverage of match branches

Whether the branches of a match cover every value of the source type, and whether
each of them can be reached. Bound patterns are reduced to their constructors, and a
matrix of such rows is searched column by column, under a budget of steps. The source
has no bound on the recursion but the budget; here the recursion is on a number that
the budget never exceeds.
-/
namespace UnionId.Matching

open Lib

def MAX_COVERAGE_STEPS : ℕ := 100000

/-- The head of a value, as far as coverage is concerned. -/
inductive CoverageConstructor where
  | variant (id : UInt64) (name : String)
  | none
  | some
  | record (fields : List String)
  | tuple
  deriving DecidableEq, Repr

def CoverageConstructor.name : CoverageConstructor → Option String
  | .variant _ name => Option.some name
  | .none => Option.some "None"
  | .some => Option.some "Some"
  | .record _ | .tuple => Option.none

/-- Bindings and wildcards cover the same values; only the shape is kept. -/
abbrev CoveragePattern := Pat CoverageConstructor

namespace CoveragePattern

def rootName : CoveragePattern → Option String
  | .wildcard => none
  | .constructor c _ => c.name

def displayRecord (fields values : List String) : String :=
  "\x7b" ++ String.intercalate ", " ((fields.zip values).map fun (field, value) =>
    field ++ " = " ++ value) ++ "\x7d"

mutual
/-- A pattern as it is shown in an error. -/
def display : Pat CoverageConstructor → String
  | .wildcard => "_"
  | .constructor (.variant _ name) arguments =>
    match arguments with
    | [] => name
    | [.constructor (.record fields) values] =>
      name ++ " " ++ displayRecord fields (displayAll values)
    | arguments => name ++ "(" ++ String.intercalate ", " (displayAll arguments) ++ ")"
  | .constructor .none _ => "None"
  | .constructor .some arguments => "Some " ++ (displayAll arguments).headD "_"
  | .constructor (.record fields) values => displayRecord fields (displayAll values)
  | .constructor .tuple values => "(" ++ String.intercalate ", " (displayAll values) ++ ")"

def displayAll : List (Pat CoverageConstructor) → List String
  | [] => []
  | p :: ps => display p :: displayAll ps
end

mutual
/-- Equality of patterns. -/
def same : Pat CoverageConstructor → Pat CoverageConstructor → Bool
  | .wildcard, .wildcard => true
  | .constructor c args, .constructor c' args' => c = c' && sameAll args args'
  | _, _ => false

def sameAll : List (Pat CoverageConstructor) → List (Pat CoverageConstructor) → Bool
  | [], [] => true
  | p :: ps, q :: qs => same p q && sameAll ps qs
  | _, _ => false
end

end CoveragePattern

/-! ## Patterns as coverage patterns -/

def MatchTag.constructor (name : String) : MatchTag → CoverageConstructor
  | .variant id => .variant id name
  | .none => .none
  | .some => .some

/-- One pattern for each declared field; a field that is not mentioned is a wildcard. -/
def coverageRecordPattern (catalog : Catalog) (context : String) (expected : ScalarType)
    (fields : List (String × (ScalarType → Result CoveragePattern))) : Result CoveragePattern := do
  match ← catalog.underlying expected with
  | .record definitions => do
    let values ← definitions.mapM fun definition =>
      match fields.lookup definition.name with
      | none => pure .wildcard
      | some coverage => coverage definition.ty
    pure (.constructor (.record (definitions.map fun field => field.name)) values)
  | _ => fails (context ++ " is not a record and cannot use a record pattern")

mutual
/-- The shape of a pattern against a type. -/
def coveragePattern (catalog : Catalog) (context : String) :
    MatchPattern → ScalarType → Result CoveragePattern
  | .wildcard, _ => pure .wildcard
  | .binding _, _ => pure .wildcard
  | .constructor name payload _, expected => do
    let source ← matchSource catalog expected context
    let (tag, arguments, displayName) ← resolveConstructor catalog source context name
    let values ← coveragePayload catalog context payload arguments
    pure (.constructor (tag.constructor displayName) values)
  | .record fields _, expected =>
    coverageRecordPattern catalog context expected (coverageFields catalog context fields)
  | .tuple patterns, expected => do
    match ← catalog.underlying expected with
    | .tuple items => do
      let values ← coverageItems catalog context patterns items
      pure (.constructor .tuple values)
    | _ => fails (context ++ " is not a tuple and cannot use a tuple pattern")

def coveragePayload (catalog : Catalog) (context : String) :
    PayloadOf MatchPattern → List ScalarType → Result (List CoveragePattern)
  | .unit, _ => pure []
  | .record fields _, arguments =>
    match arguments with
    | [recordType] => do
      let value ← coverageRecordPattern catalog context recordType
        (coverageFields catalog context fields)
      pure [value]
    | _ => fails ("invalid record payload in pattern for " ++ context)
  | .positional patterns, arguments => coverageItems catalog context patterns arguments

def coverageItems (catalog : Catalog) (context : String) :
    List MatchPattern → List ScalarType → Result (List CoveragePattern)
  | pattern :: patterns, ty :: types => do
    let value ← coveragePattern catalog context pattern ty
    let values ← coverageItems catalog context patterns types
    pure (value :: values)
  | _, _ => pure []

/-- The shape of each field, at whatever type it is declared with. -/
def coverageFields (catalog : Catalog) (context : String) :
    List (String × MatchPattern) → List (String × (ScalarType → Result CoveragePattern))
  | [] => []
  | (field, pattern) :: fields =>
    (field, coveragePattern catalog context pattern) :: coverageFields catalog context fields
end

/-! ## Constructors of a type -/

mutual
/-- Whether a type mentions a named type. -/
def typeContainsRef (target : UInt64) : ScalarType → Bool
  | .ref id => id = target
  | .record columns => columnsContainRef target columns
  | .enum variants => variantsContainRef target variants
  | .tuple items => itemsContainRef target items
  | .option inner | .list inner | .map inner => typeContainsRef target inner
  | _ => false

def itemsContainRef (target : UInt64) : List ScalarType → Bool
  | [] => false
  | ty :: types => typeContainsRef target ty || itemsContainRef target types

def columnsContainRef (target : UInt64) : List (ColumnOf ScalarType) → Bool
  | [] => false
  | ⟨_, ty, _, _⟩ :: columns => typeContainsRef target ty || columnsContainRef target columns

def variantsContainRef (target : UInt64) : List (VariantOf ScalarType) → Bool
  | [] => false
  | ⟨_, args, _⟩ :: variants => itemsContainRef target args || variantsContainRef target variants
end

/-- The variants of a named type, those that do not mention it first. -/
def orderedVariants (ty : ScalarType) (variants : List EnumVariantDef) : List EnumVariantDef :=
  match ty with
  | .ref id => variants.mergeSort fun a b =>
      !itemsContainRef id a.args || itemsContainRef id b.args
  | _ => variants

/-- A constructor with the types of its arguments. -/
abbrev ConstructorSpec := CoverageConstructor × List ScalarType

def variantSpec (variant : EnumVariantDef) : ConstructorSpec :=
  (.variant variant.id variant.name, variant.args)

/-- The constructors of a structural type; the others are opaque. -/
def specsOf (ty : ScalarType) : ScalarType → Option (List ConstructorSpec)
  | .enum variants => some ((orderedVariants ty variants).map variantSpec)
  | .option inner => some [(.none, []), (.some, [inner])]
  | .record fields => some [(.record (fields.map fun field => field.name),
      fields.map fun field => field.ty)]
  | .tuple items => some [(.tuple, items)]
  | _ => none

def constructorSpecs (catalog : Catalog) (ty : ScalarType) :
    Result (Option (List ConstructorSpec)) := do
  let underlying ← catalog.underlying ty
  pure (specsOf ty underlying)

/-! ## The searches -/

/-- The budget is used up. -/
def coverageLimit : Error :=
  { code := .E_LIMIT, message := ("match coverage analysis exceeds " ++
      toString MAX_COVERAGE_STEPS ++ " steps; simplify the nested patterns" : String) }

def findSpec (c : CoverageConstructor) (specs : Option (List ConstructorSpec)) :
    Option ConstructorSpec :=
  specs.bind fun specs => specs.find? fun spec => spec.1 = c

/-- Try the constructors until one has an answer. -/
def firstSpec {α : Type} (search : ConstructorSpec → StateT ℕ Result (Option α)) :
    List ConstructorSpec → StateT ℕ Result (Option α)
  | [] => pure none
  | spec :: specs => do
    match ← search spec with
    | some answer => pure (some answer)
    | none => firstSpec search specs

/-- Some values of the types are accepted by the query and by no row. -/
def patternIsUseful (catalog : Catalog) :
    ℕ → List (List CoveragePattern) → List CoveragePattern → List ScalarType → StateT ℕ Result Bool
  | 0, _, _, _ => throw coverageLimit
  | n + 1, matrix, query, types => do
    drawUnit coverageLimit
    if matrix.any (wildRow query.length) then pure false
    else
      match query, types with
      | [], _ => pure matrix.isEmpty
      | _ :: _, [] => throw { code := .E_MATCH, message := "invalid pattern coverage type vector" }
      | .wildcard :: query, headType :: tailTypes => do
        match ← constructorSpecs catalog headType with
        | some specs => do
          let found ← firstSpec (fun spec => do
            let useful ← patternIsUseful catalog n (specializeMatrix matrix spec.1 spec.2.length)
              (List.replicate spec.2.length .wildcard ++ query) (spec.2 ++ tailTypes)
            pure (if useful then some () else none)) specs
          pure found.isSome
        | none => patternIsUseful catalog n (defaultMatrix matrix) query tailTypes
      | .constructor c arguments :: query, headType :: tailTypes => do
        let specs ← constructorSpecs catalog headType
        match findSpec c specs with
        | some spec =>
          patternIsUseful catalog n (specializeMatrix matrix c spec.2.length)
            (arguments ++ query) (spec.2 ++ tailTypes)
        | none => throw { code := .E_MATCH,
                          message := "pattern constructor does not match its type" }

/-- Values of the types that no row accepts, as patterns. -/
def uncoveredPatterns (catalog : Catalog) :
    ℕ → List (List CoveragePattern) → List ScalarType →
      StateT ℕ Result (Option (List CoveragePattern))
  | 0, _, _ => throw coverageLimit
  | n + 1, matrix, types => do
    drawUnit coverageLimit
    if matrix.any (wildRow types.length) then pure none
    else
      match types with
      | [] => pure (if matrix.isEmpty then some [] else none)
      | headType :: tailTypes => do
        match ← constructorSpecs catalog headType with
        | some specs =>
          firstSpec (fun spec => do
            let witness ← uncoveredPatterns catalog n
              (specializeMatrix matrix spec.1 spec.2.length) (spec.2 ++ tailTypes)
            pure (witness.map fun witness =>
              .constructor spec.1 (witness.take spec.2.length) :: witness.drop spec.2.length)) specs
        | none => do
          let witness ← uncoveredPatterns catalog n (defaultMatrix matrix) tailTypes
          pure (witness.map (.wildcard :: ·))

/-- The constructors of the source type that no branch covers completely. -/
def missingTopLevelConstructors (catalog : Catalog) (n : ℕ) (sourceType : ScalarType)
    (matrix : List (List CoveragePattern)) : StateT ℕ Result (List String) := do
  match ← constructorSpecs catalog sourceType with
  | none => throw { code := .E_MATCH,
                    message := "top-level match source does not have constructors" }
  | some specs => do
    let missing ← specs.filterMapM fun spec => do
      let pattern := Pat.constructor spec.1 (List.replicate spec.2.length .wildcard)
      let useful ← patternIsUseful catalog n matrix [pattern] [sourceType]
      pure (if useful then some (spec.1.name.getD (CoveragePattern.display pattern)) else none)
    pure (if missing.isEmpty then ["a nested value"] else missing)

/-! ## Binding the branches of a match -/

/-- Bind one branch. A branch that accepts anything must be the last. -/
def bindArm (catalog : Catalog) (source : MatchSource) (sourceName : String)
    (sourceTy : ScalarType) (last : Bool) : MatchPattern → Result (MatchPattern × List Column)
  | .wildcard =>
    if last then pure (.wildcard, [])
    else fails "wildcard match branch must be last; later branches are unreachable"
  | .binding name =>
    if last then pure (.binding name, [{ name, ty := sourceTy, default := none, id := 0 }])
    else fails "top-level binding match branch must be last; later branches are unreachable"
  | .constructor name payload _ => do
    let (tag, argumentTypes, displayName) ← resolveConstructor catalog source sourceName name
    let (payload, bindings) ← bindPayload catalog payload displayName argumentTypes
    pure (.constructor name payload (some tag), bindings)
  | .record _ _ | .tuple _ =>
    fails "top-level match branch must name a constructor, binding, or '_'"

/-- The refusal of a branch that the earlier ones cover. -/
def unreachableBranch (matrix : List (List CoveragePattern)) (coverage : CoveragePattern)
    (index : ℕ) : Error :=
  { code := .E_MATCH, message :=
      if matrix.any fun row => CoveragePattern.sameAll row [coverage] then
        match CoveragePattern.rootName coverage with
        | none => ("match branch " ++ toString (index + 1) ++ " is matched more than once" : String)
        | some name => ("constructor '" ++ name ++
            "' is matched more than once with the same pattern" : String)
      else ("match branch " ++ toString (index + 1) ++
        " is unreachable; its pattern is already covered by earlier branches" : String) }

/-- Bind the branches in order, each after the rows of the earlier ones. -/
def bindArms (catalog : Catalog) (limit : ℕ) (source : MatchSource) (sourceName : String)
    (sourceTy : ScalarType) : ℕ → List (List CoveragePattern) → List MatchPattern →
      StateT ℕ Result (List (MatchPattern × List Column) × List (List CoveragePattern))
  | _, matrix, [] => pure ([], matrix)
  | index, matrix, pattern :: patterns => do
    let bound ← bindArm catalog source sourceName sourceTy patterns.isEmpty pattern
    let coverage ← coveragePattern catalog sourceName bound.1 sourceTy
    let useful ← patternIsUseful catalog limit matrix [coverage] [sourceTy]
    if useful then do
      let (rest, matrix) ← bindArms catalog limit source sourceName sourceTy (index + 1)
        (matrix ++ [[coverage]]) patterns
      pure (bound :: rest, matrix)
    else throw (unreachableBranch matrix coverage index)

/-- Values are left over after the last branch. -/
def nonExhaustive (missing : List String) (witness : List CoveragePattern) : Error :=
  { code := .E_MATCH, message := ("non-exhaustive match; missing " ++
      String.intercalate ", " missing ++ "; uncovered example " ++
      ((witness.head?.map CoveragePattern.display).getD "_") : String) }

/-- Bind and check all branches under a budget. -/
def bindPatternsWith (limit : ℕ) (catalog : Catalog) (sourceName : String) (sourceTy : ScalarType)
    (patterns : List MatchPattern) : Result (List (MatchPattern × List Column)) := do
  let source ← matchSource catalog sourceTy sourceName
  let ((bound, matrix), budget) ← bindArms catalog limit source sourceName sourceTy 0
    [] patterns limit
  let (witness, budget) ← uncoveredPatterns catalog limit matrix [sourceTy] budget
  match witness with
  | none => pure bound
  | some witness => do
    let (missing, _) ← missingTopLevelConstructors catalog limit sourceTy matrix budget
    .error (nonExhaustive missing witness)

def bindPatterns : Catalog → String → ScalarType → List MatchPattern →
    Result (List (MatchPattern × List Column)) :=
  bindPatternsWith MAX_COVERAGE_STEPS

end UnionId.Matching
