import UnionId.Db.Index

/-!
# References between tables

The key a row has on either side of a reference, the check of a batch of changes
against a row source, and the reverse postings of a database in memory.
-/
namespace UnionId

open Lib Std

namespace ReferenceDefinition

/-- One component of a reference key; an absent optional value has none. -/
def componentValue (fields : Fields) (source : Bool) (component : ReferenceComponent) :
    Result (Option Value) :=
  match rowField fields (if source then component.column else component.targetColumn) with
  | none => fail .E_FIELD "reference field is missing"
  | some value =>
    if source ∧ component.mode = .optional then
      match value with
      | .option none => pure none
      | .option (some value) => pure (some value)
      | _ => fail .E_TYPE "optional reference requires an Option value"
    else pure (some value)

/-- The component values, up to the first absent one. -/
def componentValues (fields : Fields) (source : Bool) :
    List ReferenceComponent → Result (Option (List Value))
  | [] => pure (some [])
  | component :: components => do
    match ← componentValue fields source component with
    | none => pure none
    | some value => do
      let rest ← componentValues fields source components
      pure (rest.map (value :: ·))

def values (definition : ReferenceDefinition) (fields : Fields) (source : Bool) :
    Result (Option (List Value)) :=
  componentValues fields source definition.components

/-- The value under which the write set names a reference entry. -/
def sourceValue (definition : ReferenceDefinition) (fields : Fields) : Result (Option Value) := do
  let values ← definition.values fields true
  pure (values.map tupleOf)

/-- The reference components with their target types and given directions. -/
def boundComponents (definition : ReferenceDefinition) (descending : List Bool)
    (values : List Value) : List OrderedKey.Component :=
  ((definition.components.zip descending).zip values).map fun c =>
    { ty := c.1.1.targetType, value := c.2, descending := c.1.2 }

def ascending (definition : ReferenceDefinition) : List Bool :=
  definition.components.map fun _ => false

/-- Refuse a key that a complete index key could not hold. -/
def limitedReferenceKey (key : List UInt8) : Result (List UInt8) :=
  if key.length + COMPLETE_KEY_OVERHEAD > OrderedKey.MAX_COMPLETE_INDEX_KEY_BYTES then
    fail .E_INDEX_KEY_LIMIT "reference key exceeds the complete index key limit"
  else pure key

/-- The key of a row as a source or as a target. -/
def key (definition : ReferenceDefinition) (catalog : Catalog) (fields : Fields) (source : Bool) :
    Result (Option (List UInt8)) := do
  match ← definition.values fields source with
  | none => pure none
  | some values => do
    let key ← OrderedKey.encodeTuple catalog
      (definition.boundComponents definition.ascending values)
    let key ← limitedReferenceKey key
    pure (some key)

end ReferenceDefinition

/-! ## Checking a batch of changes -/

/-- What the check of one reference gathers from the changes. -/
structure ReferenceBatch where
  sourceKeys : ExtTreeMap (List UInt8) (List UInt8)
  removedTargets : ExtTreeSet (List UInt8)
  newTargets : ExtTreeSet (List UInt8)
  bytes : ℕ

namespace ReferenceBatch

def empty : ReferenceBatch := ⟨∅, ∅, ∅, 0⟩

/-- Count one key towards the working-state limit. -/
def account (batch : ReferenceBatch) (key : List UInt8) : Result ReferenceBatch :=
  let bytes := batch.bytes + key.length + 64
  if bytes > GENERAL_WORKING_MAX_BYTES then
    fail .E_LIMIT
      "reference validation exceeds mutation working state limit; reduce the batch size"
  else pure { batch with bytes }

end ReferenceBatch

def missingTarget : Error := violation .referenceMissing "reference target does not exist"
def restrictedTarget : Error := violation .referenceRestricted "target key is still referenced"

namespace Database

def hasReferences (db : Database) : Bool := !db.referenceDefinitions.isEmpty

def schemaTables (db : Database) : List Table := valuesOf db.objects

def tableById (db : Database) (id : UInt64) : Option Table :=
  db.schemaTables.find? fun table => table.id = id

def targetTable (db : Database) (definition : ReferenceDefinition) : Result Table :=
  match db.tableById definition.targetTableId with
  | some table => .ok table
  | none => fail .E_STORAGE "reference target table is missing"

/-- The table and the index that decide whether a target exists. -/
def referenceTargetIndex (db : Database) (definition : ReferenceDefinition) :
    Result (Table × IndexDefinition) := do
  let target ← db.targetTable definition
  match (valuesOf (db.definitions target.name)).find? fun index =>
      match definition.target with
      | .primaryKey => index.isPrimaryIndex target.primaryKey
      | .uniqueIndex indexId => index.id = indexId with
  | some index => pure (target, index)
  | none => fail .E_STORAGE "reference target index is missing"

/-- The key of a source row in the target index. -/
def referenceTargetBoundary (db : Database) (definition : ReferenceDefinition) (fields : Fields) :
    Result (Option (List UInt8)) := do
  match ← definition.values fields true with
  | none => pure none
  | some values => do
    let (_, index) ← db.referenceTargetIndex definition
    let boundary ← OrderedKey.encodeTuple db.catalog (definition.boundComponents
      (index.effectiveComponents.map fun component => component.descending) values)
    pure (some boundary)

/-- The key of a changed target row; targets have no optional components. -/
def targetKey (db : Database) (definition : ReferenceDefinition) (row : Row) :
    Result (List UInt8) := do
  match ← definition.key db.catalog row.fields false with
  | some key => pure key
  | none => fail .E_INTERNAL "exact target"

def gatherRemoved (db : Database) (definition : ReferenceDefinition) (batch : ReferenceBatch) :
    Option Row → Result ReferenceBatch
  | none => pure batch
  | some row => do
    let key ← db.targetKey definition row
    let batch ← batch.account key
    pure { batch with removedTargets := batch.removedTargets.insert key }

def gatherNew (db : Database) (definition : ReferenceDefinition) (batch : ReferenceBatch) :
    Option Row → Result ReferenceBatch
  | none => pure batch
  | some row => do
    let key ← db.targetKey definition row
    let batch ← batch.account key
    pure { batch with newTargets := batch.newTargets.insert key }

def gatherSource (db : Database) (definition : ReferenceDefinition) (batch : ReferenceBatch) :
    Option Row → Result ReferenceBatch
  | none => pure batch
  | some row => do
    match ← definition.key db.catalog row.fields true with
    | none => pure batch
    | some key => do
      match ← db.referenceTargetBoundary definition row.fields with
      | none => fail .E_INTERNAL "present source key"
      | some boundary => do
        let batch ← batch.account key
        let batch ← batch.account boundary
        pure { batch with sourceKeys := batch.sourceKeys.insert key boundary }

/-- Gather one change. A self reference looks at it from both sides. -/
def gatherChange (db : Database) (definition : ReferenceDefinition)
    (sourceChanged targetChanged : Bool) (batch : ReferenceBatch) (change : RowChange) :
    Result ReferenceBatch := do
  let batch ← db.gatherRemoved definition batch (if targetChanged then change.before else none)
  let batch ← db.gatherNew definition batch (if targetChanged then change.after else none)
  db.gatherSource definition batch (if sourceChanged then change.after else none)

def gather (db : Database) (definition : ReferenceDefinition) (sourceChanged targetChanged : Bool) :
    ReferenceBatch → List RowChange → Result ReferenceBatch
  | batch, [] => pure batch
  | batch, change :: changes => do
    let batch ← db.gatherChange definition sourceChanged targetChanged batch change
    gather db definition sourceChanged targetChanged batch changes

/-- A target key that no changed row keeps must have no source left. -/
def checkRemoved (definition : ReferenceDefinition) (source : RowSource) (batch : ReferenceBatch)
    (excluded : List RowId) : List (List UInt8) → Result Unit
  | [] => pure ()
  | key :: keys =>
    if key ∈ batch.newTargets then checkRemoved definition source batch excluded keys
    else if key ∈ batch.sourceKeys then
      throw restrictedTarget
    else do
      if ← source.referenceSourceExists definition.id key excluded then
        throw restrictedTarget
      else checkRemoved definition source batch excluded keys

/-- A source key that no changed row provides must have an unchanged target. -/
def checkSources (source : RowSource) (batch : ReferenceBatch) (target shape : String)
    (targetChanged : Bool) (changedIds : List RowId) :
    List (List UInt8 × List UInt8) → Result Unit
  | [] => pure ()
  | (key, boundary) :: keys =>
    if key ∈ batch.newTargets then
      checkSources source batch target shape targetChanged changedIds keys
    else do
      let hits ← source.scanIndex target shape (.point boundary) false none
      if hits.any fun hit => !targetChanged || decide (hit.rowId ∉ changedIds) then
        checkSources source batch target shape targetChanged changedIds keys
      else throw missingTarget

/-- Check one reference against a batch of changes of one table. -/
def validateReference [External] (db : Database) (source : RowSource) (tableId : UInt64)
    (changes : List RowChange) (definition : ReferenceDefinition) : Result Unit :=
  let sourceChanged := definition.tableId = tableId
  let targetChanged := definition.targetTableId = tableId
  if !sourceChanged && !targetChanged then pure ()
  else do
    let (target, index) ← db.referenceTargetIndex definition
    let batch ← db.gather definition sourceChanged targetChanged .empty changes
    let changedIds := changes.map RowChange.rowId
    checkRemoved definition source batch (if sourceChanged then changedIds else [])
      batch.removedTargets.toList
    checkSources source batch target.name index.shapeKey targetChanged changedIds
      batch.sourceKeys.toList

def validateReferences [External] (db : Database) (source : RowSource) (tableId : UInt64)
    (changes : List RowChange) : List ReferenceDefinition → Result Unit
  | [] => pure ()
  | definition :: definitions => do
    db.validateReference source tableId changes definition
    validateReferences db source tableId changes definitions

def validateSourceReferenceChanges [External] (db : Database) (source : RowSource) (table : String)
    (changes : List RowChange) : Result Unit :=
  if changes.isEmpty || !db.hasReferences then pure ()
  else do
    let table ← db.table table
    db.validateReferences source table.id changes (valuesOf db.referenceDefinitions)

/-! ## Reverse postings -/

/-- Remove the entry of a before image. -/
def dropSource (db : Database) (definition : ReferenceDefinition)
    (sources : Posting (List UInt8) RowId) : Option Row → Result (Posting (List UInt8) RowId)
  | none => pure sources
  | some row => do
    match ← definition.key db.catalog row.fields true with
    | none => pure sources
    | some key => pure (sources.remove key row.id)

/-- Add the entry of an after image. -/
def addSource (db : Database) (definition : ReferenceDefinition)
    (sources : Posting (List UInt8) RowId) : Option Row → Result (Posting (List UInt8) RowId)
  | none => pure sources
  | some row => do
    match ← definition.key db.catalog row.fields true with
    | none => pure sources
    | some key => pure (sources.insert key row.id)

/-- The reverse postings after a batch: every before image leaves first. -/
def candidateStates (db : Database) (tableId : UInt64) (changes : List RowChange) :
    ExtTreeMap UInt64 ReferenceState → List ReferenceDefinition →
      Result (ExtTreeMap UInt64 ReferenceState)
  | states, [] => pure states
  | states, definition :: definitions =>
    if definition.tableId ≠ tableId then candidateStates db tableId changes states definitions
    else
      match states[definition.id]? with
      | none => fail .E_STORAGE "reference postings are missing"
      | some state => do
        let sources ← changes.foldlM (fun sources change =>
          db.dropSource definition sources change.before) state.sources
        let sources ← changes.foldlM (fun sources change =>
          db.addSource definition sources change.after) sources
        candidateStates db tableId changes (states.insert definition.id ⟨sources⟩) definitions

def referenceCandidate [External] (db : Database) (table : String) (changes : List RowChange) :
    Result (ExtTreeMap UInt64 ReferenceState) :=
  if changes.isEmpty || !db.hasReferences then pure db.referenceStates
  else do
    db.validateSourceReferenceChanges db.rowSource table changes
    let table ← db.table table
    db.candidateStates table.id changes db.referenceStates (valuesOf db.referenceDefinitions)

/-- Post the source rows of a reference, each with a target that exists. -/
def postSources [External] (db : Database) (definition : ReferenceDefinition)
    (target shape : String) :
    Posting (List UInt8) RowId → List Row → Result (Posting (List UInt8) RowId)
  | sources, [] => pure sources
  | sources, row :: rows => do
    match ← definition.key db.catalog row.fields true with
    | none => postSources db definition target shape sources rows
    | some key => do
      match ← db.referenceTargetBoundary definition row.fields with
      | none => fail .E_INTERNAL "present source key"
      | some boundary => do
        let hits ← db.rowSource.scanIndex target shape (.point boundary) false none
        if hits.isEmpty then throw missingTarget
        else postSources db definition target shape (sources.insert key row.id) rows

def buildReferenceState [External] (db : Database) (definition : ReferenceDefinition)
    (source target : String) : Result ReferenceState := do
  let (_, index) ← db.referenceTargetIndex definition
  let table ← db.table source
  let sources ← db.postSources definition target index.shapeKey ∅ table.rows
  pure ⟨sources⟩

end Database
end UnionId
