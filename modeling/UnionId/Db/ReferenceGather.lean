import UnionId.Db.ReferenceKeys

/-!
# What the reference check gathers

One pass over a batch collects the target keys that go, those that come, and the
source keys that come with their index boundaries. It stops at a source key that
cannot be formed, or when the accounted bytes pass the working-state limit.
-/
namespace UnionId

open Lib Std List

def keyBytes : Result (Option (List UInt8)) → ℕ
  | .ok (some key) => key.length + 64
  | _ => 0

/-- The keys of an image: at most one. -/
def keysOf (key : Row → Result (Option (List UInt8))) (image : Option Row) : Set (List UInt8) :=
  {k | imageOf key image = .ok (some k)}

/-- What a batch record stands for: removed and new target keys, and source keys
with their boundaries. -/
structure BatchOf (batch : ReferenceBatch) (removed new : Set (List UInt8))
    (sources : Set (List UInt8 × List UInt8)) : Prop where
  mem_removed : ∀ k, k ∈ batch.removedTargets ↔ k ∈ removed
  mem_new : ∀ k, k ∈ batch.newTargets ↔ k ∈ new
  complete : ∀ k b, (k, b) ∈ sources → k ∈ batch.sourceKeys
  sound : ∀ (k b : List UInt8), batch.sourceKeys[k]? = some b → (k, b) ∈ sources

theorem batchOf_empty : BatchOf .empty ∅ ∅ ∅ where
  mem_removed := by simp [ReferenceBatch.empty]
  mem_new := by simp [ReferenceBatch.empty]
  complete := by simp
  sound := by simp [ReferenceBatch.empty]

namespace Database

variable {db : Database} {definition : ReferenceDefinition} {batch : ReferenceBatch}
  {R N : Set (List UInt8)} {S : Set (List UInt8 × List UInt8)} {image : Option Row}

/-- The code of a source row in the target index. -/
def boundaryOf (db : Database) (definition : ReferenceDefinition) (row : Row) :
    Result (Option (List UInt8)) :=
  db.referenceTargetBoundary definition row.fields

/-- Source keys of an image, with their boundaries. -/
def sourcesOf (db : Database) (definition : ReferenceDefinition) (image : Option Row) :
    Set (List UInt8 × List UInt8) :=
  {e | imageOf (definition.sourceKey db.catalog) image = .ok (some e.1) ∧
    imageOf (db.boundaryOf definition) image = .ok (some e.2)}

theorem account_cases (batch : ReferenceBatch) (key : List UInt8) :
    (batch.bytes + (key.length + 64) ≤ GENERAL_WORKING_MAX_BYTES ∧
      batch.account key = .ok { batch with bytes := batch.bytes + (key.length + 64) }) ∨
    (GENERAL_WORKING_MAX_BYTES < batch.bytes + (key.length + 64) ∧
      ∃ error, batch.account key = .error error) := by
  unfold ReferenceBatch.account
  rw [Nat.add_assoc]
  by_cases h : batch.bytes + (key.length + 64) > GENERAL_WORKING_MAX_BYTES
  · exact .inr ⟨h, _, if_pos h⟩
  · exact .inl ⟨Nat.not_lt.mp h, if_neg h⟩

/-- The result of one gathering step: a batch that stands for more keys, or a stop
at the limit. -/
def Gathered (step : Result ReferenceBatch) (bytes : ℕ) (R N : Set (List UInt8))
    (S : Set (List UInt8 × List UInt8)) : Prop :=
  (∃ batch, step = .ok batch ∧ BatchOf batch R N S ∧ batch.bytes = bytes ∧
    bytes ≤ GENERAL_WORKING_MAX_BYTES) ∨
  ((∃ error, step = .error error) ∧ GENERAL_WORKING_MAX_BYTES < bytes)

theorem targetKey_eq {row : Row} {k : List UInt8}
    (h : definition.targetKey db.catalog row = .ok (some k)) :
    db.targetKey definition row = .ok k := by
  simp only [ReferenceDefinition.targetKey] at h
  simp [Database.targetKey, h]

theorem gatherRemoved_spec (hbatch : BatchOf batch R N S)
    (hlim : batch.bytes ≤ GENERAL_WORKING_MAX_BYTES)
    (hk : ∀ row, image = some row → ∃ k, definition.targetKey db.catalog row = .ok (some k)) :
    Gathered (db.gatherRemoved definition batch image)
      (batch.bytes + keyBytes (imageOf (definition.targetKey db.catalog) image))
      (R ∪ keysOf (definition.targetKey db.catalog) image) N S := by
  cases image with
  | none => exact .inl ⟨batch, rfl, by simpa [keysOf, imageOf] using hbatch, rfl, hlim⟩
  | some row =>
    obtain ⟨k, hk⟩ := hk row rfl
    simp only [gatherRemoved, targetKey_eq hk, ok_bind, imageOf, hk, keyBytes]
    obtain ⟨hfit, hacc⟩ | ⟨hover, error, hacc⟩ := account_cases batch k
    · rw [hacc]
      refine .inl ⟨_, rfl, ⟨fun k' => ?_, hbatch.mem_new, hbatch.complete, hbatch.sound⟩, rfl, hfit⟩
      simp [keysOf, imageOf, hk, ← hbatch.mem_removed, eq_comm (a := k)]
    · exact .inr ⟨⟨error, by rw [hacc]; rfl⟩, hover⟩

theorem gatherNew_spec (hbatch : BatchOf batch R N S)
    (hlim : batch.bytes ≤ GENERAL_WORKING_MAX_BYTES)
    (hk : ∀ row, image = some row → ∃ k, definition.targetKey db.catalog row = .ok (some k)) :
    Gathered (db.gatherNew definition batch image)
      (batch.bytes + keyBytes (imageOf (definition.targetKey db.catalog) image)) R
      (N ∪ keysOf (definition.targetKey db.catalog) image) S := by
  cases image with
  | none => exact .inl ⟨batch, rfl, by simpa [keysOf, imageOf] using hbatch, rfl, hlim⟩
  | some row =>
    obtain ⟨k, hk⟩ := hk row rfl
    simp only [gatherNew, targetKey_eq hk, ok_bind, imageOf, hk, keyBytes]
    obtain ⟨hfit, hacc⟩ | ⟨hover, error, hacc⟩ := account_cases batch k
    · rw [hacc]
      refine .inl ⟨_, rfl, ⟨hbatch.mem_removed, fun k' => ?_, hbatch.complete, hbatch.sound⟩, rfl,
        hfit⟩
      simp [keysOf, imageOf, hk, ← hbatch.mem_new, eq_comm (a := k)]
    · exact .inr ⟨⟨error, by rw [hacc]; rfl⟩, hover⟩

variable {target : Table} {index : IndexDefinition}

theorem gatherSource_spec
    (hb : ReferenceBound db definition target index) (hbatch : BatchOf batch R N S)
    (hlim : batch.bytes ≤ GENERAL_WORKING_MAX_BYTES)
    (hk : ∃ k, imageOf (definition.sourceKey db.catalog) image = .ok k) :
    Gathered (db.gatherSource definition batch image)
      (batch.bytes + (keyBytes (imageOf (definition.sourceKey db.catalog) image) +
        keyBytes (imageOf (db.boundaryOf definition) image))) R N
      (S ∪ db.sourcesOf definition image) := by
  cases image with
  | none => exact .inl ⟨batch, rfl, by simpa [sourcesOf, imageOf] using hbatch, rfl, hlim⟩
  | some row =>
    obtain ⟨k, hk⟩ := hk
    have hkey : definition.key db.catalog row.fields true = .ok k := hk
    simp only [gatherSource, hkey, ok_bind]
    cases k with
    | none =>
      have hnone : imageOf (db.boundaryOf definition) (some row) = .ok none := by
        simp [imageOf, boundaryOf, referenceTargetBoundary,
          ReferenceDefinition.key_eq_ok_none hkey]
      rw [hk, hnone]
      exact .inl ⟨batch, rfl, by simpa [sourcesOf, hk] using hbatch, rfl, hlim⟩
    | some k =>
      obtain ⟨values, boundary, -, -, hbound⟩ := hb.boundary_of_sourceKey hk
      have hbo : imageOf (db.boundaryOf definition) (some row) = .ok (some boundary) := hbound
      simp only [hbound, ok_bind, hk, hbo, keyBytes]
      obtain ⟨hfit, hacc⟩ | ⟨hover, error, hacc⟩ := account_cases batch k
      · rw [hacc, ok_bind]
        obtain ⟨hfit', hacc'⟩ | ⟨hover', error, hacc'⟩ := account_cases
          { batch with bytes := batch.bytes + (k.length + 64) } boundary
        · rw [hacc', ok_bind]
          refine .inl ⟨_, rfl, ⟨hbatch.mem_removed, hbatch.mem_new, fun k' b h => ?_,
            fun k' b h => ?_⟩, by simp [Nat.add_assoc], by simpa [Nat.add_assoc] using hfit'⟩
          · obtain h | ⟨h, -⟩ := h
            · simp [hbatch.complete k' b h]
            · rw [hk] at h
              simp only [Except.ok.injEq, Option.some.injEq] at h
              simp [h]
          · rw [ExtTreeMap.getElem?_insert] at h
            split at h
            · rename_i heq
              obtain rfl : k = k' := by simpa using heq
              cases h
              exact .inr ⟨hk, hbo⟩
            · exact .inl (hbatch.sound k' b h)
        · exact .inr ⟨⟨error, by rw [hacc']; rfl⟩, by simpa [Nat.add_assoc] using hover'⟩
      · refine .inr ⟨⟨error, by rw [hacc]; rfl⟩, ?_⟩
        omega

/-! ## The whole pass -/

variable {changes : List RowChange} {sourceChanged targetChanged : Bool}

/-- Sequencing: more bytes, more keys. -/
theorem Gathered.bind {step : Result ReferenceBatch} {f : ReferenceBatch → Result ReferenceBatch}
    {bytes more : ℕ} {R' N' : Set (List UInt8)} {S' : Set (List UInt8 × List UInt8)}
    (h : Gathered step bytes R N S)
    (hf : ∀ batch, BatchOf batch R N S → batch.bytes ≤ GENERAL_WORKING_MAX_BYTES →
      Gathered (f batch) (batch.bytes + more) R' N' S') :
    Gathered (step >>= f) (bytes + more) R' N' S' := by
  obtain ⟨batch, rfl, hbatch, rfl, hlim⟩ | ⟨⟨error, rfl⟩, hover⟩ := h
  · exact hf batch hbatch hlim
  · exact .inr ⟨⟨error, rfl⟩, by omega⟩

def changeBytes (db : Database) (definition : ReferenceDefinition)
    (sourceChanged targetChanged : Bool) (change : RowChange) : ℕ :=
  let before := if targetChanged then change.before else none
  let after := if targetChanged then change.after else none
  let source := if sourceChanged then change.after else none
  keyBytes (imageOf (definition.targetKey db.catalog) before) +
    (keyBytes (imageOf (definition.targetKey db.catalog) after) +
      (keyBytes (imageOf (definition.sourceKey db.catalog) source) +
        keyBytes (imageOf (db.boundaryOf definition) source)))

def batchBytes (db : Database) (definition : ReferenceDefinition)
    (sourceChanged targetChanged : Bool) (changes : List RowChange) : ℕ :=
  (changes.map (db.changeBytes definition sourceChanged targetChanged)).sum

def targetKeysOf (db : Database) (definition : ReferenceDefinition) (targetChanged : Bool)
    (image : RowChange → Option Row) (changes : List RowChange) : Set (List UInt8) :=
  {k | ∃ change ∈ changes, k ∈ keysOf (definition.targetKey db.catalog)
    (if targetChanged then image change else none)}

/-- The source keys of all new images, with their boundaries. -/
def sourceKeysOf (db : Database) (definition : ReferenceDefinition) (sourceChanged : Bool)
    (changes : List RowChange) : Set (List UInt8 × List UInt8) :=
  {e | ∃ change ∈ changes, e ∈ db.sourcesOf definition
    (if sourceChanged then change.after else none)}

/-- The target keys of changed rows can be formed. -/
def TargetsKeyed (db : Database) (definition : ReferenceDefinition) (targetChanged : Bool)
    (changes : List RowChange) : Prop :=
  targetChanged → ∀ change ∈ changes, ∀ row, change.before = some row ∨ change.after = some row →
    ∃ k, definition.targetKey db.catalog row = .ok (some k)

/-- The source keys of new images can be formed. -/
def SourcesKeyed (db : Database) (definition : ReferenceDefinition) (sourceChanged : Bool)
    (changes : List RowChange) : Prop :=
  sourceChanged → ∀ change ∈ changes,
    ∃ k, imageOf (definition.sourceKey db.catalog) change.after = .ok k

theorem gatherChange_spec {change : RowChange}
    (hb : ReferenceBound db definition target index) (hbatch : BatchOf batch R N S)
    (hlim : batch.bytes ≤ GENERAL_WORKING_MAX_BYTES)
    (ht : targetChanged → ∀ row, change.before = some row ∨ change.after = some row →
      ∃ k, definition.targetKey db.catalog row = .ok (some k))
    (hs : sourceChanged → ∃ k, imageOf (definition.sourceKey db.catalog) change.after = .ok k) :
    Gathered (db.gatherChange definition sourceChanged targetChanged batch change)
      (batch.bytes + db.changeBytes definition sourceChanged targetChanged change)
      (R ∪ keysOf (definition.targetKey db.catalog) (if targetChanged then change.before else none))
      (N ∪ keysOf (definition.targetKey db.catalog) (if targetChanged then change.after else none))
      (S ∪ db.sourcesOf definition (if sourceChanged then change.after else none)) := by
  have hbefore : ∀ row, (if targetChanged then change.before else none) = some row →
      ∃ k, definition.targetKey db.catalog row = .ok (some k) := by
    intro row hrow
    cases targetChanged
    · cases hrow
    · exact ht rfl row (.inl hrow)
  have hafter : ∀ row, (if targetChanged then change.after else none) = some row →
      ∃ k, definition.targetKey db.catalog row = .ok (some k) := by
    intro row hrow
    cases targetChanged
    · cases hrow
    · exact ht rfl row (.inr hrow)
  have hsource : ∃ k, imageOf (definition.sourceKey db.catalog)
      (if sourceChanged then change.after else none) = .ok k := by
    cases sourceChanged
    · exact ⟨none, rfl⟩
    · exact hs rfl
  unfold gatherChange changeBytes
  rw [← Nat.add_assoc]
  refine (gatherRemoved_spec hbatch hlim hbefore).bind fun batch hbatch hlim => ?_
  rw [← Nat.add_assoc]
  refine (gatherNew_spec hbatch hlim hafter).bind fun batch hbatch hlim => ?_
  exact gatherSource_spec hb hbatch hlim hsource

/-- **The pass over a batch.** -/
theorem gather_spec (hb : ReferenceBound db definition target index) (hbatch : BatchOf batch R N S)
    (hlim : batch.bytes ≤ GENERAL_WORKING_MAX_BYTES)
    (ht : TargetsKeyed db definition targetChanged changes)
    (hs : SourcesKeyed db definition sourceChanged changes) :
    Gathered (db.gather definition sourceChanged targetChanged batch changes)
      (batch.bytes + db.batchBytes definition sourceChanged targetChanged changes)
      (R ∪ db.targetKeysOf definition targetChanged RowChange.before changes)
      (N ∪ db.targetKeysOf definition targetChanged RowChange.after changes)
      (S ∪ db.sourceKeysOf definition sourceChanged changes) := by
  induction changes generalizing batch R N S with
  | nil =>
    refine .inl ⟨batch, rfl, ?_, by simp [batchBytes], by simpa [batchBytes] using hlim⟩
    simpa [targetKeysOf, sourceKeysOf] using hbatch
  | cons change changes ih =>
    have hstep := gatherChange_spec hb hbatch hlim
      (fun h => ht h change mem_cons_self) (fun h => hs h change mem_cons_self)
    have hrest := hstep.bind fun batch hbatch hlim => ih hbatch hlim
      (fun h c hc => ht h c (mem_cons_of_mem _ hc))
      (fun h c hc => hs h c (mem_cons_of_mem _ hc))
    convert hrest using 1
    · rfl
    · simp [batchBytes, Nat.add_assoc]
    · ext k
      simp [targetKeysOf, or_assoc]
    · ext k
      simp [targetKeysOf, or_assoc]
    · ext e
      simp [sourceKeysOf, or_assoc]

/-- A pass that comes through has formed every source key. -/
theorem sourcesKeyed_of_gather {batch' : ReferenceBatch}
    (h : db.gather definition sourceChanged targetChanged batch changes = .ok batch') :
    SourcesKeyed db definition sourceChanged changes := by
  intro hs
  subst hs
  induction changes generalizing batch with
  | nil => simp
  | cons change changes ih =>
    obtain ⟨next, hstep, hrest⟩ := of_bind h
    rw [forall_mem_cons]
    refine ⟨?_, ih hrest⟩
    obtain ⟨b₁, -, b₂, -, hstep⟩ := of_bind₂ hstep
    cases ha : change.after with
    | none => exact ⟨none, rfl⟩
    | some row =>
      simp only [ha, if_true, gatherSource] at hstep
      obtain ⟨k, hk, -⟩ := of_bind hstep
      exact ⟨k, hk⟩

end Database
end UnionId
