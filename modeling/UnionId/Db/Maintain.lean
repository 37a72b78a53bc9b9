import UnionId.Db.Reference

/-!
# Applying row changes

The write set of a request and the two functions that change rows: `insertFields`
for one new row, and `replaceRowsAndIndexes` for a batch. Both keep the postings
of every index and reference in step with the rows.
-/
namespace UnionId

open Lib Std

/-! ## Recording changes -/

namespace LogicalWriteSet

/-- A later change of a recorded row keeps the first before image; a row that was
inserted and deleted leaves no entry. -/
def mergeRowChange (after : Option Row) (entry : RowChange) : Option RowChange :=
  if h : (entry.before.or after).isSome then some ⟨entry.before, after, h⟩ else none

def recordRowChanges (writes : LogicalWriteSet) (table : String) (changes : List RowChange) :
    LogicalWriteSet :=
  { writes with
    rows := changes.foldl (fun rows change =>
      Coalesce.record rows (table, change.rowId) change (mergeRowChange change.after)) writes.rows }

def recordTableWatermark (writes : LogicalWriteSet) (table : String) (before after : RowId) :
    LogicalWriteSet :=
  if before = after then writes
  else { writes with
    tableWatermarks := Coalesce.record writes.tableWatermarks table (before, after)
      fun watermark => some (watermark.1, after) }

abbrev IndexEntries := Coalesce.Log (UInt64 × IndexKey × RowId) IndexEntryChange

/-- An entry that ends where it began is dropped. -/
def recordIndexEntry (entries : IndexEntries) (indexId : UInt64) (value : Value) (rowId : RowId)
    (before after : Bool) : IndexEntries :=
  Coalesce.record entries (indexId, value.indexKey, rowId) { indexId, value, rowId, before, after }
    fun entry => if entry.before = after then none else some { entry with after }

/-- Record one row's move from one key to another; equal keys leave no trace. -/
def recordMove (entries : IndexEntries) (indexId : UInt64) (rowId : RowId)
    (before after : Option Value) : IndexEntries :=
  if before.map Value.indexKey = after.map Value.indexKey then entries
  else
    let entries := match before with
      | some value => recordIndexEntry entries indexId value rowId true false
      | none => entries
    match after with
    | some value => recordIndexEntry entries indexId value rowId false true
    | none => entries

end LogicalWriteSet

/-- The value of a row that the index covers. -/
def includedValue (definition : IndexDefinition) (table : String) (fields : Fields) :
    Result (Option Value) :=
  if definition.includes fields then do
    let value ← indexValue fields definition.effectiveComponents table
    pure (some value)
  else pure none

def imageValue (definition : IndexDefinition) (table : String) :
    Option Row → Result (Option Value)
  | none => pure none
  | some row => includedValue definition table row.fields

def imageSourceValue (definition : ReferenceDefinition) : Option Row → Result (Option Value)
  | none => pure none
  | some row => definition.sourceValue row.fields

/-- Record the moves of a batch under one index or reference. -/
def recordMoves (value : Option Row → Result (Option Value)) (id : UInt64) :
    LogicalWriteSet.IndexEntries → List RowChange → Result LogicalWriteSet.IndexEntries
  | entries, [] => pure entries
  | entries, change :: changes => do
    let before ← value change.before
    let after ← value change.after
    recordMoves value id (LogicalWriteSet.recordMove entries id change.rowId before after) changes

namespace Database

/-- Record the moves of a batch under every index, then under every reference
that has the table as its source. -/
def indexMoves (db : Database) (name : String) (tableId : UInt64) (changes : List RowChange)
    (entries : LogicalWriteSet.IndexEntries) : Result LogicalWriteSet.IndexEntries := do
  let entries ← (valuesOf (db.definitions name)).foldlM (fun entries definition =>
    recordMoves (imageValue definition name) definition.id entries changes) entries
  ((valuesOf db.referenceDefinitions).filter fun definition => definition.tableId = tableId).foldlM
    (fun entries definition =>
      recordMoves (imageSourceValue definition) definition.id entries changes) entries

def recordIndexChanges (db : Database) (name : String) (changes : List RowChange) :
    Result Database := do
  let table ← db.table name
  let entries ← db.indexMoves name table.id changes db.pendingWrites.indexEntries
  pure { db with pendingWrites := { db.pendingWrites with indexEntries := entries } }

/-! ## One new row -/

def constraintIndex [External] (name : String) (definition : IndexDefinition) : Message :=
  ("'" ++ name ++ " " : String) ++ definition.displayConstraint ++ "'"

def duplicatePrimaryKey (name key : String) : Error :=
  violation .primaryKey ("duplicate primary key '" ++ name ++ "." ++ key ++ "'" : String)

def duplicateUnique [External] (name : String) (definition : IndexDefinition) : Error :=
  violation definition.uniqueConstraintKind
    ("duplicate value for unique index " ++ constraintIndex name definition)

/-- Every covering index can form its value. -/
def checkIndexValues (name : String) (fields : Fields) : List IndexDefinition → Result Unit
  | [] => pure ()
  | definition :: definitions => do
    let _ ← includedValue definition name fields
    checkIndexValues name fields definitions

def missingKey {α : Type} (key : String) : Result α :=
  fail .E_FIELD ("missing key '" ++ key ++ "'" : String)

/-- No row has the primary key of the new one. -/
def checkNewPrimaryKey (db : Database) (name : String) (fields : Fields) :
    Option String → Result Unit
  | none => pure ()
  | some key =>
    match rowField fields key with
    | none => missingKey key
    | some value => do
      let bytes ← db.singleIndexKey name key value
      match (db.tableIndexes name)[key]? with
      | some posting =>
        if bytes ∈ posting then throw (duplicatePrimaryKey name key) else pure ()
      | none => pure ()

/-- No row has the key of the new one under a unique index. -/
def checkNewUnique [External] (db : Database) (name : String) (fields : Fields) :
    List IndexDefinition → Result Unit
  | [] => pure ()
  | definition :: definitions =>
    if definition.isUnique && definition.includes fields then do
      let key ← db.indexTupleKey name definition.effectiveComponents fields
      match (db.tableIndexes name)[definition.shapeKey]? with
      | some posting =>
        if key ∈ posting then throw (duplicateUnique name definition)
        else checkNewUnique db name fields definitions
      | none => checkNewUnique db name fields definitions
    else checkNewUnique db name fields definitions

/-- The shapes and keys under which a new row is posted. -/
def newIndexEntries [External] (db : Database) (name : String) (fields : Fields) :
    List IndexDefinition → Result (List (String × List UInt8))
  | [] => pure []
  | definition :: definitions => do
    match ← db.includedIndexTupleKey name definition fields with
    | none => newIndexEntries db name fields definitions
    | some key => do
      let rest ← newIndexEntries db name fields definitions
      pure ((definition.shapeKey, key) :: rest)

/-- Post a new row; a shape always comes from the same definitions. -/
def postEntries (id : RowId) (indexes : TableIndexes) (entries : List (String × List UInt8)) :
    TableIndexes :=
  entries.foldl (fun indexes entry =>
    match indexes[entry.1]? with
    | some posting => indexes.insert entry.1 (posting.pushBack entry.2 id)
    | none => indexes) indexes

def nextId {α : Type} (id count : ℕ) (f : ℕ → Result α) : Result α :=
  if id + count < U64_LIMIT then f (id + count) else fail .E_LIMIT "row ID space exhausted"

def insertFields [External] (db : Database) (name : String) (fields : Fields) :
    Result (RowId × Database) := do
  let table ← db.table name
  let definitions := valuesOf (db.definitions name)
  checkIndexValues name fields definitions
  db.checkNewPrimaryKey name fields table.primaryKey
  db.checkNewUnique name fields definitions
  let id := table.nextRowId
  nextId id 1 fun nextRowId => do
    let entries ← db.newIndexEntries name fields definitions
    let row : Row := { id, fields }
    let changes := [RowChange.inserted row]
    let referenceStates ← db.referenceCandidate name changes
    let indexes := match db.indexes[name]? with
      | some indexes => db.indexes.insert name (postEntries id indexes entries)
      | none => db.indexes
    let db := { db with
      indexes, referenceStates
      objects := db.objects.insert name { table with rows := table.rows ++ [row], nextRowId }
      pendingWrites := db.pendingWrites.recordRowChanges name changes }
    let db ← db.recordIndexChanges name changes
    pure (id, { db with
      pendingWrites := db.pendingWrites.recordTableWatermark name id nextRowId })

/-! ## A batch of changes -/

def imageKey (db : Database) (name : String) (definition : IndexDefinition) :
    Option Row → Result (Option (List UInt8))
  | none => pure none
  | some row => db.includedIndexTupleKey name definition row.fields

/-- An update keeps its row identity, and every new key can be formed. -/
def checkChange (db : Database) (name : String) (definitions : List IndexDefinition)
    (change : RowChange) : Result Unit :=
  match change.before, change.after with
  | some before, some after =>
    if before.id ≠ after.id then fail .E_INDEX "an updated row cannot change its stable row ID"
    else definitions.forM fun definition => discard (db.imageKey name definition (some after))
  | _, after => definitions.forM fun definition => discard (db.imageKey name definition after)

/-- Take the before image of a change out of a posting, unless its key stays. -/
def removeBefore [External] (db : Database) (name : String) (definition : IndexDefinition)
    (posting : IndexPosting) (change : RowChange) : Result IndexPosting :=
  match change.before with
  | none => pure posting
  | some before => do
    match ← db.imageKey name definition (some before) with
    | none => pure posting
    | some key => do
      let afterKey ← db.imageKey name definition change.after
      if afterKey = some key then pure posting
      else if before.id ∈ posting.idsAt key then pure (posting.remove key before.id)
      else fail .E_INDEX ("index " ++ constraintIndex name definition ++
        (" is missing row ID " ++ toString before.id : String))

/-- A key under which at most one row may stand. -/
def constrains (definition : IndexDefinition) (primaryKey : Option String) : Bool :=
  definition.isUnique || definition.isPrimaryIndex primaryKey

def duplicateKey [External] (name : String) (definition : IndexDefinition)
    (primaryKey : Option String) : Error :=
  if definition.isPrimaryIndex primaryKey then duplicatePrimaryKey name (primaryKey.getD "")
  else duplicateUnique name definition

/-- Put the after image of a change into a posting, unless its key stayed. -/
def insertAfter [External] (db : Database) (name : String) (primaryKey : Option String)
    (definition : IndexDefinition) (posting : IndexPosting) (change : RowChange) :
    Result IndexPosting :=
  match change.after with
  | none => pure posting
  | some after => do
    match ← db.imageKey name definition (some after) with
    | none => pure posting
    | some key => do
      let beforeKey ← db.imageKey name definition change.before
      if beforeKey = some key then pure posting
      else if constrains definition primaryKey && !(posting.idsAt key).isEmpty then
        throw (duplicateKey name definition primaryKey)
      else if after.id ∈ posting.idsAt key then
        fail .E_INDEX ("index " ++ constraintIndex name definition ++
          (" already contains row ID " ++ toString after.id : String))
      else pure (posting.insert key after.id)

/-- Run one update over the posting of every definition. -/
def updatePostings [External] (name : String)
    (update : IndexDefinition → IndexPosting → Result IndexPosting) :
    TableIndexes → List IndexDefinition → Result TableIndexes
  | indexes, [] => pure indexes
  | indexes, definition :: definitions =>
    match indexes[definition.shapeKey]? with
    | none => fail .E_INDEX ("missing in-memory index " ++ constraintIndex name definition)
    | some posting => do
      let posting ← update definition posting
      updatePostings name update (indexes.insert definition.shapeKey posting) definitions

/-- The postings after a batch: every before image leaves before any after image
enters, so keys may be swapped. -/
def candidateIndexes [External] (db : Database) (name : String) (primaryKey : Option String)
    (changes : List RowChange) : Result TableIndexes := do
  let definitions := valuesOf (db.definitions name)
  changes.forM (db.checkChange name definitions)
  let indexes ← updatePostings name (fun definition posting =>
    changes.foldlM (db.removeBefore name definition) posting) (db.tableIndexes name) definitions
  updatePostings name (fun definition posting =>
    changes.foldlM (db.insertAfter name primaryKey definition) posting) indexes definitions

def replaceRowsAndIndexes [External] (db : Database) (name : String) (rows : List Row)
    (changes : List RowChange) : Result Database := do
  let table ← db.table name
  let indexes ← db.candidateIndexes name table.primaryKey changes
  let referenceStates ← db.referenceCandidate name changes
  let db := { db with
    referenceStates
    objects := db.objects.insert name { table with rows }
    indexes := if (db.definitions name).isEmpty then db.indexes
      else db.indexes.insert name indexes
    pendingWrites := db.pendingWrites.recordRowChanges name changes }
  db.recordIndexChanges name changes

end Database
end UnionId
