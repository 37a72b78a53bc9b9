import UnionId.Query.Access
import UnionId.Query.Bind

/-!
# Predicates of partial indexes

A partial index is declared with a condition: a conjunction of equalities between a
field and a literal, and of tests whether an optional field is present. Declaring it
binds the condition like a filter and flattens it into atoms, which are sorted, freed of
repetitions and checked for contradictions.
-/
namespace UnionId

open Lib

def MAX_INDEX_PREDICATE_ATOMS : ℕ := 64

/-- The bytes that order the atoms of one field: the JSON text of the operator, the type
and the equality key of the value. -/
class PredicateKeys where
  atomPayloadKey : ℕ → Option (ScalarType × IndexKey) → List UInt8

def predicateFails {α : Type} (message : String) : Result α := fail .E_INDEX_PREDICATE message

/-- Only the supported shapes, before anything is bound. -/
def validateShape : BoolExpression → Result Unit
  | .and left right => do
    validateShape left
    validateShape right
  | .compare left op right _ =>
    match left, op with
    | .reference _, .eq =>
      if right.isLiteral then pure ()
      else predicateFails "partial unique index equality must compare a field path with a literal"
    | _, .eq =>
      predicateFails "partial unique index equality must compare a field path with a literal"
    | _, _ => predicateFails "partial unique index predicates only support '==' comparisons"
  | .isNone value | .isSome value =>
    match value with
    | .reference _ => pure ()
    | _ => predicateFails "partial unique index option predicates require a field path"
  | _ => predicateFails
      "partial unique index predicates only support field equality, option presence, and '&&'"

def equalityAtom (catalog : Catalog) (column : String) (fieldPath : List UInt64)
    (valueType : ScalarType) (value : Value) : Result IndexPredicateAtom :=
  match value with
  | .option none => pure (.isNone column fieldPath)
  | value => do
    let coerced ← catalog.coerce value valueType "index predicate literal"
    pure (.equal column fieldPath valueType coerced)

/-- The atoms of a bound condition. -/
def collectAtoms [Builtins] (catalog : Catalog) (fields : List Column) :
    BoolExpression → Result (List IndexPredicateAtom)
  | .and left right => do
    let left ← collectAtoms catalog fields left
    let right ← collectAtoms catalog fields right
    pure (left ++ right)
  | .compare (.reference column) .eq right (some valueType) =>
    if right.isLiteral then do
      let fieldPath ← catalog.fieldPathIds fields column
      let value ← evaluateValue catalog (fun _ => none) right
      let atom ← equalityAtom catalog column fieldPath valueType value
      pure [atom]
    else predicateFails "partial unique index predicate did not normalize to a supported atom"
  | .isNone (.reference column) => return [.isNone column (← catalog.fieldPathIds fields column)]
  | .isSome (.reference column) => return [.isSome column (← catalog.fieldPathIds fields column)]
  | _ => predicateFails "partial unique index predicate did not normalize to a supported atom"

namespace IndexPredicateAtom

variable [PredicateKeys]

def payloadKey : IndexPredicateAtom → List UInt8
  | equal _ _ valueType value => PredicateKeys.atomPayloadKey 0 (some (valueType, value.indexKey))
  | isNone .. => PredicateKeys.atomPayloadKey 1 none
  | isSome .. => PredicateKeys.atomPayloadKey 2 none

/-- By field path, then by payload. -/
def le (left right : IndexPredicateAtom) : Bool :=
  ((List.compareLex compare left.fieldPath right.fieldPath).then
    (List.compareLex compare left.payloadKey right.payloadKey)).isLE

/-- Two conditions on one field that exclude each other. -/
def conflicts : IndexPredicateAtom → IndexPredicateAtom → Bool
  | equal _ _ _ left, equal _ _ _ right => !left.cmpEq right
  | isNone .., isSome .. | isSome .., isNone .. | isNone .., equal .. | equal .., isNone .. => true
  | _, _ => false

end IndexPredicateAtom

/-- Drop every atom that is equivalent to the one kept before it. -/
def dedupAtoms : List IndexPredicateAtom → List IndexPredicateAtom
  | [] => []
  | first :: atoms => first :: go first atoms
where go (kept : IndexPredicateAtom) : List IndexPredicateAtom → List IndexPredicateAtom
  | [] => []
  | atom :: atoms => if atom.equivalent kept then go kept atoms else atom :: go atom atoms

/-- A conflict of an atom with the following ones on the same field. -/
def conflictsWith (left : IndexPredicateAtom) : List IndexPredicateAtom → Bool
  | [] => false
  | right :: atoms =>
    left.fieldPath = right.fieldPath && (left.conflicts right || conflictsWith left atoms)

def checkConflicts : List IndexPredicateAtom → Result Unit
  | [] => pure ()
  | left :: atoms =>
    if conflictsWith left atoms then
      fail .E_INDEX_PREDICATE_CONTRADICTION
        ("partial unique index predicate has conflicting conditions for field '" ++ left.column ++
          "'" : String)
    else checkConflicts atoms

/-- Sort the atoms, drop repetitions and refuse contradictions. -/
def normalizeAtoms [PredicateKeys] (atoms : List IndexPredicateAtom) : Result IndexPredicate := do
  let atoms := dedupAtoms (atoms.mergeSort IndexPredicateAtom.le)
  checkConflicts atoms
  pure { atoms }

/-- The predicate of a declared condition. -/
def IndexPredicate.bind [Builtins] [PredicateKeys] (catalog : Catalog) (fields : List Column)
    (expression : BoolExpression) : Result IndexPredicate := do
  validateShape expression
  let bound ← Expression.bind catalog fields expression
  let atoms ← collectAtoms catalog fields bound
  if atoms.length > MAX_INDEX_PREDICATE_ATOMS then
    predicateFails ("partial unique index predicates support at most " ++
      toString MAX_INDEX_PREDICATE_ATOMS ++ " atoms")
  else normalizeAtoms atoms

end UnionId
