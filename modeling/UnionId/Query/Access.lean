import UnionId.Lib.KeyRange
import UnionId.Query.Pipeline

/-!
# Access planning

A query may read its table through an index. The planner takes the leading
filters that compare a field with a literal, fixes leading index components by
equality, bounds the next one by a merged range, and lets the index replace a
leading sort that follows its components. A partial index needs its conditions
among the leading filters.
-/
namespace UnionId

open Lib Catalog OrderedKey

/-! ## Leading filters -/

structure IndexConstraint where
  column : String
  op : CmpOp
  value : Value

section
variable [Dialect]

/-- The leading filters that compare a field with a literal. Local definitions are
skipped only before the first of them. -/
def leadingConstraintsFrom (started : Bool) : List Stage → List IndexConstraint
  | .letBinding :: stages => if started then [] else leadingConstraintsFrom false stages
  | .filter expression :: stages =>
    match simpleIndexComparison expression with
    | some (column, op, value) => ⟨column, op, value⟩ :: leadingConstraintsFrom true stages
    | none => []
  | _ => []

def leadingIndexConstraints (pipeline : Pipeline) : List IndexConstraint :=
  leadingConstraintsFrom false pipeline.stages

end

/-- A literal, possibly negated. -/
def ScalarExpression.isLiteral : ScalarExpression → Bool
  | .literal _ => true
  | .negate value _ => value.isLiteral
  | _ => false

/-- A literal that is present makes an optional field present. -/
def presenceAtoms (column : String) (fieldPath : List UInt64) : Value → List IndexPredicateAtom
  | .option (some _) => [.isSome column fieldPath]
  | _ => []

/-- The conditions a bound filter guarantees, without rejecting other shapes. -/
def collectQueryAtoms [Builtins] (catalog : Catalog) (fields : List Column) :
    BoolExpression → Result (List IndexPredicateAtom)
  | .and left right => do
    let left ← collectQueryAtoms catalog fields left
    let right ← collectQueryAtoms catalog fields right
    pure (left ++ right)
  | .compare (.reference column) .eq right (some valueType) =>
    if right.isLiteral then do
      let fieldPath ← catalog.fieldPathIds fields column
      let value ← evaluateValue catalog (fun _ => none) right
      match value.unwrapped with
      | .option none => pure [.isNone column fieldPath]
      | unwrapped => do
        let coerced ← catalog.coerce value valueType "query predicate literal"
        pure (presenceAtoms column fieldPath unwrapped ++
          [.equal column fieldPath valueType coerced])
    else pure []
  | .isNone (.reference column) => return [.isNone column (← catalog.fieldPathIds fields column)]
  | .isSome (.reference column) => return [.isSome column (← catalog.fieldPathIds fields column)]
  | _ => pure []

namespace IndexPredicateAtom

/-- Two conditions on one field that say the same. -/
def equivalent (left right : IndexPredicateAtom) : Bool :=
  left.fieldPath = right.fieldPath &&
    match left, right with
    | .equal _ _ _ l, .equal _ _ _ r => l.cmpEq r
    | .isNone .., .isNone .. => true
    | .isSome .., .isSome .. => true
    | _, _ => false

end IndexPredicateAtom

/-- Every condition of the predicate appears among the conditions of the query. -/
def IndexPredicate.impliedBy (predicate : IndexPredicate)
    (query : List IndexPredicateAtom) : Bool :=
  predicate.atoms.all fun atom => query.any fun candidate => atom.equivalent candidate

section
variable [Semantics]

def leadingAtoms (catalog : Catalog) (schema : List Column) :
    List Stage → Result (List IndexPredicateAtom)
  | .letBinding :: stages => leadingAtoms catalog schema stages
  | .filter expression :: stages => do
    let atoms ← collectQueryAtoms catalog schema expression
    let rest ← leadingAtoms catalog schema stages
    pure (atoms ++ rest)
  | _ => pure []

def leadingQueryPredicateAtoms (db : Database) (name : String) (pipeline : Pipeline) :
    Result (List IndexPredicateAtom) := do
  let table ← db.table name
  leadingAtoms db.catalog table.schema pipeline.stages

end

/-! ## Bounds of one component -/

structure RangeLimit where
  value : Value
  inclusive : Bool

/-- Whether a field value satisfies a comparison, in the typed order. -/
def constraintMatches (catalog : Catalog) (ty : ScalarType) (field : Value) (op : CmpOp)
    (bound : Value) : Result Bool := do
  let order ← catalog.cmpTyped ty field bound
  pure (match op with
    | .eq => order == .eq
    | .ne => order != .eq
    | .gt => order == .gt
    | .gte => order != .lt
    | .lt => order == .lt
    | .lte => order != .gt)

/-- Whether a limit is stricter than the one found so far. -/
def replacesLimit (catalog : Catalog) (ty : ScalarType) (candidate : RangeLimit)
    (preferGreater : Bool) : Option RangeLimit → Result Bool
  | none => pure true
  | some current => do
    let order ← catalog.cmpTyped ty candidate.value current.value
    pure (preferGreater && order == .gt || !preferGreater && order == .lt ||
      order == .eq && !candidate.inclusive && current.inclusive)

def stricterLimit (catalog : Catalog) (ty : ScalarType) (current : Option RangeLimit)
    (candidate : RangeLimit) (preferGreater : Bool) : Result (Option RangeLimit) := do
  if ← replacesLimit catalog ty candidate preferGreater current then pure (some candidate)
  else pure current

structure RangeLimits where
  lower : Option RangeLimit
  upper : Option RangeLimit

def mergeRangeBound (catalog : Catalog) (ty : ScalarType) (limits : RangeLimits)
    (constraint : IndexConstraint) : Result RangeLimits :=
  let lower (inclusive : Bool) : Result RangeLimits := do
    let limit ← stricterLimit catalog ty limits.lower ⟨constraint.value, inclusive⟩ true
    pure { limits with lower := limit }
  let upper (inclusive : Bool) : Result RangeLimits := do
    let limit ← stricterLimit catalog ty limits.upper ⟨constraint.value, inclusive⟩ false
    pure { limits with upper := limit }
  match constraint.op with
  | .gt => lower false
  | .gte => lower true
  | .lt => upper false
  | .lte => upper true
  | .eq | .ne => pure limits

def mergeRangeBounds (catalog : Catalog) (ty : ScalarType) (constraints : List IndexConstraint) :
    Result RangeLimits :=
  constraints.foldlM (mergeRangeBound catalog ty) ⟨none, none⟩

def rangeIsEmpty (catalog : Catalog) (ty : ScalarType) (limits : RangeLimits) : Result Bool :=
  match limits with
  | ⟨some lower, some upper⟩ => do
    let order ← catalog.cmpTyped ty lower.value upper.value
    pure (order == .gt || order == .eq && (!lower.inclusive || !upper.inclusive))
  | _ => pure false

/-- What the constraints say about the components of an index: values that fix
leading components, a range of the next one, and whether no value fits. -/
structure ComponentMatch where
  equality : List (IndexComponentDefinition × Value)
  range : Option RangeLimits
  impossible : Bool

/-- Whether a fixing value satisfies all constraints on its field, up to the first
that fails. -/
def satisfiesAll (catalog : Catalog) (ty : ScalarType) (value : Value) :
    List IndexConstraint → Result Bool
  | [] => pure true
  | constraint :: constraints => do
    if ← constraintMatches catalog ty value constraint.op constraint.value then
      satisfiesAll catalog ty value constraints
    else pure false

def matchRange (catalog : Catalog) (ty : ScalarType) (constraints : List IndexConstraint) :
    Result ComponentMatch := do
  let limits ← mergeRangeBounds catalog ty constraints
  if limits.lower.isNone ∧ limits.upper.isNone then pure ⟨[], none, false⟩
  else do
    let impossible ← rangeIsEmpty catalog ty limits
    pure ⟨[], some limits, impossible⟩

def matchComponents (catalog : Catalog) (schema : List Column)
    (constraints : List IndexConstraint) :
    List IndexComponentDefinition → Result ComponentMatch
  | [] => pure ⟨[], none, false⟩
  | component :: components =>
    match constraints.filter (fun constraint => constraint.column = component.column) with
    | [] => pure ⟨[], none, false⟩
    | fieldConstraints => do
      let ty ← catalog.fieldType schema component.column
      match fieldConstraints.find? fun constraint => constraint.op = .eq with
      | none => matchRange catalog ty fieldConstraints
      | some equal => do
        if ← satisfiesAll catalog ty equal.value fieldConstraints then do
          let rest ← matchComponents catalog schema constraints components
          pure { rest with equality := (component, equal.value) :: rest.equality }
        else pure ⟨[(component, equal.value)], none, true⟩

/-! ## Sorts that an index replaces -/

section
variable [Dialect]

/-- The sort behind the leading filters, with its position. -/
def sortAfterFilters (position : ℕ) : List Stage → Option (ℕ × List SortKey)
  | .filter expression :: stages =>
    match simpleIndexComparison expression with
    | some _ => sortAfterFilters (position + 1) stages
    | none => none
  | .sort keys :: _ => some (position, keys)
  | _ => none

def leadingSort (position : ℕ) : List Stage → Option (ℕ × List SortKey)
  | .letBinding :: stages => leadingSort (position + 1) stages
  | stages => sortAfterFilters position stages

/-- The position of a leading sort that follows the index behind its fixed
components, and whether it runs against the index. -/
def indexSortMatch (stages : List Stage) (components : List IndexComponentDefinition)
    (equalityComponents : ℕ) : Option (ℕ × Bool) := do
  let (position, keys) ← leadingSort 0 stages
  let fixed := (components.take equalityComponents).map (·.column)
  let keys := keys.filter fun key => key.column ∉ fixed
  if keys.isEmpty then some (position, false)
  else if keys.length > components.length - equalityComponents then none
  else
    let pairs := keys.zip (components.drop equalityComponents)
    if !pairs.all fun p => p.1.column = p.2.column then none
    else
      let exact := pairs.all fun p => p.1.descending = p.2.descending
      let reverse := pairs.all fun p => p.1.descending ≠ p.2.descending
      if exact || reverse then some (position, reverse) else none

end

/-! ## Bounds of keys -/

def prefixBounds (p : List UInt8) : EncodedIndexBounds :=
  if p.isEmpty then ⟨.unbounded, .unbounded⟩
  else ⟨.included p, ((prefixSuccessor p).map Bound.excluded).getD .unbounded⟩

def Bound.key : Bound → Option (List UInt8)
  | .included key | .excluded key => some key
  | .unbounded => none

def Bound.isExcluded : Bound → Bool
  | .excluded _ => true
  | _ => false

def Bound.isIncluded : Bound → Bool
  | .included _ => true
  | _ => false

def stricterLower (current candidate : Bound) : Bound :=
  match current.key, candidate.key with
  | none, _ => candidate
  | _, none => current
  | some left, some right =>
    match compare left right with
    | .lt => candidate
    | .gt => current
    | .eq => if current.isExcluded then current else candidate

def stricterUpper (current candidate : Bound) : Bound :=
  match current.key, candidate.key with
  | none, _ => candidate
  | _, none => current
  | some left, some right =>
    match compare left right with
    | .lt => current
    | .gt => candidate
    | .eq => if current.isExcluded then current else candidate

def boundsHaveValues (bounds : EncodedIndexBounds) : Bool :=
  match bounds.lower.key, bounds.upper.key with
  | some start, some stop =>
    match compare start stop with
    | .lt => true
    | .gt => false
    | .eq => bounds.lower.isIncluded && bounds.upper.isIncluded
  | _, _ => true

/-- Continue strictly behind or before a page boundary. -/
def pageSeekBounds (bounds : EncodedIndexBounds) (boundary : List UInt8) (greater : Bool) :
    Option EncodedIndexBounds := do
  let bounds ← if greater then do
      let next ← prefixSuccessor boundary
      some { bounds with lower := stricterLower bounds.lower (.included next) }
    else some { bounds with upper := stricterUpper bounds.upper (.excluded boundary) }
  if boundsHaveValues bounds then some bounds else none

def encodedComponent (catalog : Catalog) (ty : ScalarType) (descending : Bool)
    (equalityPrefix : List UInt8) (value : Value) : Result (List UInt8) := do
  let encoded ← encodeTuple catalog [⟨ty, value, descending⟩]
  pure (equalityPrefix ++ encoded)

/-- Where keys at or above a limit start. -/
def logicalLower (key : List UInt8) (inclusive : Bool) : Option Bound :=
  if inclusive then some (.included key) else (prefixSuccessor key).map .included

/-- Where keys at or below a limit end. -/
def logicalUpper (key : List UInt8) (inclusive : Bool) : Bound :=
  if inclusive then ((prefixSuccessor key).map Bound.excluded).getD .unbounded else .excluded key

def encodedLimit (catalog : Catalog) (ty : ScalarType) (descending : Bool)
    (equalityPrefix : List UInt8) : Option RangeLimit → Result (Option (List UInt8 × Bool))
  | none => pure none
  | some limit =>
    return some (← encodedComponent catalog ty descending equalityPrefix limit.value,
      limit.inclusive)

/-- The keys within a range of the component behind an equality prefix. -/
def indexRangeBounds (catalog : Catalog) (equalityPrefix : List UInt8) (descending : Bool)
    (ty : ScalarType) (limits : RangeLimits) : Result (Option EncodedIndexBounds) := do
  let equalityBounds := prefixBounds equalityPrefix
  let lower ← encodedLimit catalog ty descending equalityPrefix limits.lower
  let upper ← encodedLimit catalog ty descending equalityPrefix limits.upper
  -- A descending component turns the range around.
  let (first, last) := if descending then (upper, lower) else (lower, upper)
  let start := match first with
    | some (key, inclusive) => logicalLower key inclusive
    | none => some equalityBounds.lower
  let stop := match last with
    | some (key, inclusive) => logicalUpper key inclusive
    | none => equalityBounds.upper
  pure (start.map fun start => ⟨start, stop⟩)

/-! ## Plans -/

structure BoundPageOrder where
  key : SortKey
  fieldPath : List UInt64
  ty : ScalarType

/-- A page stage resolved against its query: the final order, and the values at
which the page continues. -/
structure PreparedPage where
  spec : PageSpec
  order : List BoundPageOrder
  boundary : Option (List Value)
  forwardDigest : String
  backwardDigest : String

structure PlannedIndexScan where
  shape : String
  bounds : Option EncodedIndexBounds
  reverse : Bool

structure IndexAccessCandidate where
  indexScan : PlannedIndexScan
  equalityComponents : ℕ
  hasRange : Bool
  componentCount : ℕ
  indexId : UInt64
  orderedSort : Option ℕ

/-- An index scan, or none for a full scan; `orderedSort` is the position of the
sort that the index replaces. -/
structure PlannedAccess where
  indexScan : Option PlannedIndexScan
  orderedSort : Option ℕ

/-- Every row of the table. -/
def PlannedAccess.fullScan : PlannedAccess := ⟨none, none⟩

def typedComponents (catalog : Catalog) (schema : List Column)
    (values : List (IndexComponentDefinition × Value)) : Result (List Component) :=
  values.mapM fun (component, value) => do
    let ty ← catalog.fieldType schema component.column
    pure ⟨ty, value, component.descending⟩

/-- The key of the fixing values; empty when nothing is fixed. -/
def equalityKey (catalog : Catalog) (schema : List Column)
    (equality : List (IndexComponentDefinition × Value)) : Result (List UInt8) :=
  if equality.isEmpty then pure []
  else do
    let bound ← typedComponents catalog schema equality
    encodeTuple catalog bound

def boundaryValue (equality : List (IndexComponentDefinition × Value)) (order : List BoundPageOrder)
    (values : List Value) (component : IndexComponentDefinition) : Option Value :=
  match equality.find? fun fixed => fixed.1.column = component.column with
  | some fixed => some fixed.2
  | none => ((order.zip values).find? fun p => p.1.key.column = component.column).map (·.2)

/-- The leading components that a page boundary has values for. -/
def boundaryPrefix (equality : List (IndexComponentDefinition × Value))
    (order : List BoundPageOrder) (values : List Value) :
    List IndexComponentDefinition → List (IndexComponentDefinition × Value)
  | [] => []
  | component :: components =>
    match boundaryValue equality order values component with
    | some value => (component, value) :: boundaryPrefix equality order values components
    | none => []

/-- How many components a page boundary must have values for. -/
def requiredComponents (equality : List (IndexComponentDefinition × Value))
    (order : List BoundPageOrder) : ℕ :=
  equality.length +
    (order.filter fun o => !equality.any fun fixed => fixed.1.column = o.key.column).length

/-- The key of a page boundary, and whether the page lies above it. -/
def pageBoundary (catalog : Catalog) (schema : List Column)
    (components : List IndexComponentDefinition)
    (equality : List (IndexComponentDefinition × Value)) (orderedSort : Option (ℕ × Bool))
    (page : Option PreparedPage) : Result (Option (List UInt8 × Bool)) :=
  match orderedSort, page with
  | some (_, reverse), some page =>
    match page.boundary with
    | none => pure none
    | some values => do
      let bound ← typedComponents catalog schema
        (boundaryPrefix equality page.order values components)
      if bound.length < requiredComponents equality page.order then pure none
      else do
        let key ← encodeTuple catalog bound
        pure (some (key, match page.spec.direction with
          | .forward => !reverse
          | .backward => reverse))
  | _, _ => pure none

/-- The keys behind an equality prefix that satisfy the range. -/
def rangeBounds (catalog : Catalog) (schema : List Column)
    (components : List IndexComponentDefinition) (found : ComponentMatch) (key : List UInt8) :
    Result (Option EncodedIndexBounds) :=
  match found.range, components.drop found.equality.length with
  | some limits, component :: _ => do
    let ty ← catalog.fieldType schema component.column
    indexRangeBounds catalog key component.descending ty limits
  | _, _ => pure (some (prefixBounds key))

def accessBounds (catalog : Catalog) (schema : List Column)
    (components : List IndexComponentDefinition) (found : ComponentMatch)
    (orderedSort : Option (ℕ × Bool)) (page : Option PreparedPage) :
    Result (Option EncodedIndexBounds) :=
  if found.impossible then pure none
  else do
    let key ← equalityKey catalog schema found.equality
    let boundary ← pageBoundary catalog schema components found.equality orderedSort page
    if found.range.isNone ∧ found.equality.length = components.length then
      pure (some ⟨.included key, .included key⟩)
    else do
      let bounds ← rangeBounds catalog schema components found key
      match boundary with
      | some (boundary, greater) => pure (bounds.bind fun b => pageSeekBounds b boundary greater)
      | none => pure bounds

/-- Whether a candidate is better than the best so far: more fixed components, then
a range, then a replaced sort, then fewer components, then the older index. -/
def IndexAccessCandidate.better (candidate current : IndexAccessCandidate) : Bool :=
  candidate.equalityComponents > current.equalityComponents ||
    candidate.equalityComponents == current.equalityComponents &&
      (candidate.hasRange && !current.hasRange ||
        candidate.hasRange == current.hasRange &&
          (candidate.orderedSort.isSome && current.orderedSort.isNone ||
            candidate.orderedSort.isSome == current.orderedSort.isSome &&
              (candidate.componentCount < current.componentCount ||
                candidate.componentCount == current.componentCount &&
                  candidate.indexId < current.indexId)))

def MAX_PREDICATE_REJECTIONS : ℕ := 8

/-- The planner's state: rejected partial indexes and the best candidate. -/
structure Planning where
  rejections : List String
  best : Option IndexAccessCandidate

/-- Whether a partial index covers every row the leading filters let through. -/
def IndexDefinition.proven (definition : IndexDefinition)
    (atoms : List IndexPredicateAtom) : Bool :=
  match definition.predicate with
  | some predicate => predicate.impliedBy atoms
  | none => true

section
variable [External] [Semantics]

def indexAccessCandidate (db : Database) (source : RowSource) (pipeline : Pipeline)
    (page : Option PreparedPage) (definition : IndexDefinition)
    (constraints : List IndexConstraint) : Result (Option IndexAccessCandidate) := do
  let _ ← source.tableStats pipeline.source
  let table ← db.table pipeline.source
  let components := definition.effectiveComponents
  let found ← matchComponents db.catalog table.schema constraints components
  let orderedSort := indexSortMatch pipeline.stages components found.equality.length
  if found.equality.isEmpty ∧ found.range.isNone ∧ orderedSort.isNone then pure none
  else do
    let bounds ← accessBounds db.catalog table.schema components found orderedSort page
    pure (some {
      indexScan := { shape := definition.shapeKey, bounds, reverse := orderedSort.any (·.2) }
      equalityComponents := found.equality.length
      hasRange := found.range.isSome
      componentCount := components.length
      indexId := definition.id
      orderedSort := orderedSort.map (·.1) })

/-- Note a partial index that would have helped. -/
def rejectIndex (db : Database) (source : RowSource) (pipeline : Pipeline)
    (page : Option PreparedPage) (constraints : List IndexConstraint) (planning : Planning)
    (definition : IndexDefinition) : Result Planning :=
  if planning.rejections.length < MAX_PREDICATE_REJECTIONS then do
    match ← indexAccessCandidate db source pipeline page definition constraints with
    | some _ => pure { planning with rejections := planning.rejections ++ [definition.shapeKey] }
    | none => pure planning
  else pure planning

def considerIndex (db : Database) (source : RowSource) (pipeline : Pipeline)
    (page : Option PreparedPage) (constraints : List IndexConstraint)
    (atoms : List IndexPredicateAtom) (planning : Planning) (definition : IndexDefinition) :
    Result Planning :=
  if !definition.proven atoms then
    rejectIndex db source pipeline page constraints planning definition
  else if !source.hasIndex pipeline.source definition.shapeKey then pure planning
  else do
    match ← indexAccessCandidate db source pipeline page definition constraints with
    | none => pure planning
    | some candidate =>
      if planning.best.all fun current => candidate.better current then
        pure { planning with best := some candidate }
      else pure planning

/-- The best index for a pipeline, or a full scan. -/
def planAccess (db : Database) (source : RowSource) (pipeline : Pipeline)
    (page : Option PreparedPage) : Result PlannedAccess := do
  let _ ← source.tableStats pipeline.source
  let constraints := leadingIndexConstraints pipeline
  let atoms ← leadingQueryPredicateAtoms db pipeline.source pipeline
  let planning ← (valuesOf (db.definitions pipeline.source)).foldlM
    (considerIndex db source pipeline page constraints atoms) ⟨[], none⟩
  match planning.best with
  | some best => pure ⟨some best.indexScan, best.orderedSort⟩
  | none => pure .fullScan

end

/-! ## Candidates -/

/-- The order of the candidates: as the page or the replaced sort wants them, else
by row identity. -/
def arrangeCandidates (access : PlannedAccess) (backward : Bool) (selected : List RowId) :
    List RowId :=
  let selected := if backward then selected.reverse else selected
  if access.orderedSort.isNone then (selected.insertionSort (· ≤ ·)).dedup else selected

section
variable [Semantics]

/-- How many rows the stages behind a replaced sort can use, when each of them keeps
every row up to the cut. -/
def neededRows : List Stage → Option ℕ
  | .take offset limit :: _ => some (offset + limit)
  | .page spec :: _ => some (spec.limit + 1)
  | .letBinding :: stages | .derive .. :: stages | .deriveMatch .. :: stages
  | .select _ :: stages => neededRows stages
  | _ => none

def Stage.isFilter : Stage → Bool
  | .filter _ => true
  | _ => false

/-- Whether a row passes the filters among some stages. -/
def passesFilters (catalog : Catalog) (row : Fields) : List Stage → Evaluation Bool
  | [] => pure true
  | .filter expression :: stages => do
    if ← evaluate catalog row expression then passesFilters catalog row stages else pure false
  | _ :: stages => passesFilters catalog row stages

/-- Whether a hit counts; without filters every hit does. -/
def eligibleHit (catalog : Catalog) (source : RowSource) (name : String)
    (filters : Option (List Stage)) (id : RowId) : Evaluation Bool :=
  match filters with
  | none => pure true
  | some stages => do
    match ← source.getRow name id with
    | none => pure false
    | some row => passesFilters catalog row.fields stages

/-- Collect eligible hits until there is no room for more. -/
def selectHits (catalog : Catalog) (source : RowSource) (name : String)
    (filters : Option (List Stage)) : List RowId → Option ℕ → List IndexHit →
      Evaluation (List RowId)
  | _, _, [] => pure []
  | seen, room, hit :: hits => do
    if hit.rowId ∈ seen then
      throw { code := .E_STORAGE, message :=
        "typed index scan returned the same row ID more than once" }
    if ← eligibleHit catalog source name filters hit.rowId then
      match room with
      | some 1 => pure [hit.rowId]
      | room => do
        let rest ← selectHits catalog source name filters (hit.rowId :: seen)
          (room.map (· - 1)) hits
        pure (hit.rowId :: rest)
    else selectHits catalog source name filters (hit.rowId :: seen) room hits

/-- The row identities that an index scan yields; `none` for a full scan. -/
def materializeAccessCandidates (db : Database) (source : RowSource) (pipeline : Pipeline)
    (page : Option PreparedPage) (access : PlannedAccess) : Result (Option (List RowId)) :=
  match access.indexScan with
  | none => pure none
  | some scan =>
    match scan.bounds with
    | none => pure (some [])
    | some bounds =>
      let before := access.orderedSort.elim [] fun position => pipeline.stages.take position
      let needed := access.orderedSort.bind fun position =>
        neededRows (pipeline.stages.drop (position + 1))
      let residual := before.any (·.isFilter)
      let backward := page.any fun page => page.spec.direction = .backward
      if needed = some 0 then pure (some [])
      else do
        let hits ← source.scanIndex pipeline.source scan.shape bounds (scan.reverse ^^ backward)
          (if residual then none else needed)
        let filters := if needed.isSome && residual then some before else none
        let (selected, _) ← selectHits db.catalog source pipeline.source filters [] needed hits
          MAX_COLLECTION_PREDICATE_EVALUATIONS
        pure (some (arrangeCandidates access backward selected))

end
end UnionId
