import UnionId.Engine.Script
import UnionId.Lib.Fallible
import UnionId.Lib.Assoc

/-!
# Idempotency receipts

A receipt keeps the response to a script under the key of its request, so that the
script is not executed again when the request is repeated. Receipts are admitted under
limits on their number and size; `prepareNewReceipt` checks the limits before a commit
and `validateReceipts` checks a whole map of receipts when it is loaded. What is stored is
text, which `loadReceipts` reads back.

## Main results

* `ReceiptsValid.insert` — what `prepareNewReceipt` admits, `validateReceipts` accepts.
* `loadReceipts_eq_ok_iff` — a valid map is loaded exactly if every receipt can be read.
-/
namespace UnionId.Scripts

open Lib

def MAX_IDEMPOTENCY_KEY_BYTES : ℕ := 256
def MAX_IDEMPOTENCY_RECEIPT_BYTES : ℕ := 1024 * 1024
def MAX_IDEMPOTENCY_RECEIPTS : ℕ := 10000
def MAX_IDEMPOTENCY_TOTAL_BYTES : ℕ := 64 * 1024 * 1024
def DURABLE_CODEC_OVERHEAD : ℕ := 6

structure IdempotencyReceipt (Detail : Type) where
  digest : String
  committedSequence : ℕ
  completedAtUnixMs : ℕ
  response : QueryResponse Detail

abbrev ReceiptMap (Detail : Type) := List (String × IdempotencyReceipt Detail)

/-- What the model leaves to the JSON library: the text of a receipt, the length of a text in
bytes, and what is read from a text. A receipt that is read is the one that was written;
whether a text is read at all is up to the reader. -/
class ReceiptEncoding (Detail : Type) where
  Text : Type
  encodedReceipt : IdempotencyReceipt Detail → Text
  length : Text → ℕ
  fromSlice : Text → Option (IdempotencyReceipt Detail)
  eq_of_fromSlice : ∀ {receipt read : IdempotencyReceipt Detail},
    fromSlice (encodedReceipt receipt) = some read → read = receipt

def validateKey (key : String) : Result Unit :=
  if key.isEmpty || key.utf8ByteSize > MAX_IDEMPOTENCY_KEY_BYTES then
    fail .E_IDEMPOTENCY_KEY "idempotency key must contain 1 to 256 UTF-8 bytes"
  else .ok ()

def validateDigest (digest : String) : Result Unit :=
  if "sha256:".toList.isPrefixOf digest.toList && (digest.toList.drop 7).length == 64 &&
      (digest.toList.drop 7).all fun c => c.isDigit || ('a' ≤ c && c ≤ 'f') then
    .ok ()
  else fail .E_IDEMPOTENCY_DIGEST
    "idempotency digest must be sha256 followed by 64 lowercase hexadecimal digits"

/-- A check of stored data fails with a storage error. -/
def asStorageError {α : Type} (x : Result α) : Result α :=
  match x with
  | .ok a => .ok a
  | .error e => fail .E_STORAGE e.message

variable {Detail : Type} [ReceiptEncoding Detail]

/-- The size of a receipt in the durable codec. -/
def IdempotencyReceipt.size (receipt : IdempotencyReceipt Detail) : ℕ :=
  ReceiptEncoding.length (ReceiptEncoding.encodedReceipt receipt) + DURABLE_CODEC_OVERHEAD

def ReceiptMap.size (receipts : ReceiptMap Detail) : ℕ := (receipts.map fun p => p.2.size).sum

def validateReceipt (sequence : ℕ) (key : String) (receipt : IdempotencyReceipt Detail) :
    Result Unit := do
  asStorageError (validateKey key)
  asStorageError (validateDigest receipt.digest)
  asStorageError (validateSummaries receipt.response.statements)
  if !receipt.response.ok || receipt.response.error.isSome then
    fail .E_STORAGE "idempotency receipt contains a failed response"
  else if receipt.committedSequence > sequence then
    fail .E_STORAGE "idempotency receipt sequence exceeds the database commit sequence"
  else if receipt.size > MAX_IDEMPOTENCY_RECEIPT_BYTES then
    fail .E_STORAGE "idempotency receipt exceeds the supported encoded size"
  else .ok ()

def validateReceipts (receipts : ReceiptMap Detail) (sequence : ℕ) : Result ℕ := do
  if receipts.length > MAX_IDEMPOTENCY_RECEIPTS then
    fail .E_STORAGE "idempotency receipt count exceeds the supported limit"
  else do
    receipts.forM fun p => validateReceipt sequence p.1 p.2
    if receipts.size > MAX_IDEMPOTENCY_TOTAL_BYTES then
      fail .E_STORAGE "idempotency receipt total exceeds the supported limit"
    else .ok receipts.size

/-! ## Admission -/

inductive ReceiptCapacityState where
  | normal
  | warning
  | full
  deriving DecidableEq, Repr

def ReceiptCapacityState.fromUsage (count encodedBytes maxCount maxEncodedBytes : ℕ) :
    ReceiptCapacityState :=
  if count ≥ maxCount ∨ encodedBytes ≥ maxEncodedBytes then .full
  else if count * 100 ≥ maxCount * 80 ∨ encodedBytes * 100 ≥ maxEncodedBytes * 80 then .warning
  else .normal

def CAPACITY_WARNING : Message :=
  ("Idempotency receipt capacity was at least 80% used at this commit; " ++
    "inspect receipts status and preview explicit pruning before confirming it." : String)

/-- Near the limits a receipt gets a warning. -/
def withCapacityWarning (receipts : ReceiptMap Detail) (receipt : IdempotencyReceipt Detail) :
    IdempotencyReceipt Detail :=
  let projected := ReceiptCapacityState.fromUsage (receipts.length + 1)
    (receipts.size + receipt.size) MAX_IDEMPOTENCY_RECEIPTS MAX_IDEMPOTENCY_TOTAL_BYTES
  if projected ≠ .normal then
    { receipt with response :=
      { receipt.response with warnings := receipt.response.warnings ++ [CAPACITY_WARNING] } }
  else receipt

/-- Check the limits for one more receipt. The warning counts towards its size. -/
def prepareNewReceipt (receipts : ReceiptMap Detail) (receipt : IdempotencyReceipt Detail) :
    Result (IdempotencyReceipt Detail) :=
  let admitted := withCapacityWarning receipts receipt
  if receipt.size > MAX_IDEMPOTENCY_RECEIPT_BYTES then
    fail .E_IDEMPOTENCY_LIMIT "encoded idempotency receipt exceeds its limit"
  else if admitted.size > MAX_IDEMPOTENCY_RECEIPT_BYTES then
    fail .E_IDEMPOTENCY_LIMIT
      "idempotency receipt including its capacity warning exceeds the single-receipt limit"
  else if receipts.length ≥ MAX_IDEMPOTENCY_RECEIPTS ∨
      receipts.size + admitted.size > MAX_IDEMPOTENCY_TOTAL_BYTES then
    fail .E_IDEMPOTENCY_CAPACITY "idempotency receipt capacity exhausted"
  else .ok admitted

/-! ## Storage -/

/-- A stored receipt behind its magic number: the version of the codec and the text. -/
structure StoredReceipt (Detail : Type) [ReceiptEncoding Detail] where
  version : UInt16
  body : ReceiptEncoding.Text Detail

def encodeReceipt (receipt : IdempotencyReceipt Detail) (version : UInt16) :
    StoredReceipt Detail :=
  ⟨version, ReceiptEncoding.encodedReceipt receipt⟩

/-- The reader's own error text is left out. -/
def decodeReceipt (value : StoredReceipt Detail) (expectedVersion : UInt16) :
    Result (IdempotencyReceipt Detail) :=
  if value.version ≠ expectedVersion then
    fail .E_STORAGE
      ("unsupported idempotency receipt codec version " ++ toString value.version : String)
  else match ReceiptEncoding.fromSlice value.body with
    | some receipt => .ok receipt
    | none => fail .E_STORAGE "decode idempotency receipt"

/-- Read the receipts of a file that a store of this version wrote; `storedBytes` is what
has been read before. -/
def loadReceipts (version : UInt16) : ℕ → ReceiptMap Detail → Result (ReceiptMap Detail)
  | _, [] => .ok []
  | storedBytes, (key, receipt) :: rest =>
    let value := encodeReceipt receipt version
    let len := ReceiptEncoding.length value.body + DURABLE_CODEC_OVERHEAD
    if len > MAX_IDEMPOTENCY_RECEIPT_BYTES then
      fail .E_STORAGE "stored idempotency receipt exceeds the supported encoded size"
    else if storedBytes + len > MAX_IDEMPOTENCY_TOTAL_BYTES then
      fail .E_STORAGE "stored idempotency receipt total exceeds the supported limit"
    else do
      let receipt ← decodeReceipt value version
      let rest ← loadReceipts version (storedBytes + len) rest
      .ok ((key, receipt) :: rest)

/-! ## What is admitted is valid -/

omit [ReceiptEncoding Detail] in
theorem asStorageError_eq_ok {α : Type} {x : Result α} {a : α} :
    asStorageError x = .ok a ↔ x = .ok a := by
  cases x <;> simp [asStorageError, fail]

structure ReceiptValid (sequence : ℕ) (key : String) (receipt : IdempotencyReceipt Detail) :
    Prop where
  key : validateKey key = .ok ()
  digest : validateDigest receipt.digest = .ok ()
  summaries : validateSummaries receipt.response.statements = .ok ()
  response : receipt.response.ok = true ∧ receipt.response.error = none
  sequence : receipt.committedSequence ≤ sequence
  size : receipt.size ≤ MAX_IDEMPOTENCY_RECEIPT_BYTES

variable {sequence : ℕ} {receipt : IdempotencyReceipt Detail} {receipts : ReceiptMap Detail}
  {key : String} {admitted : IdempotencyReceipt Detail}

theorem validateReceipt_eq_ok_iff :
    validateReceipt sequence key receipt = .ok () ↔ ReceiptValid sequence key receipt := by
  simp only [validateReceipt, bind_eq_ok, asStorageError_eq_ok]
  constructor
  · rintro ⟨_, hkey, _, hdigest, _, hsummaries, h⟩
    obtain ⟨hresponse, h⟩ := of_refused h
    split at h
    · cases h
    · split at h
      · cases h
      · simp only [Bool.or_eq_true, Bool.not_eq_true', not_or, Bool.not_eq_false,
          Option.not_isSome_iff_eq_none] at hresponse
        exact ⟨hkey, hdigest, hsummaries, hresponse, by omega, by omega⟩
  · rintro ⟨hkey, hdigest, hsummaries, ⟨hok, herror⟩, hsequence, hsize⟩
    refine ⟨(), hkey, (), hdigest, (), hsummaries, ?_⟩
    simp [hok, herror, Nat.not_lt.mpr hsequence, Nat.not_lt.mpr hsize]

structure ReceiptsValid (receipts : ReceiptMap Detail) (sequence : ℕ) : Prop where
  count : receipts.length ≤ MAX_IDEMPOTENCY_RECEIPTS
  each : ∀ p ∈ receipts, ReceiptValid sequence p.1 p.2
  total : receipts.size ≤ MAX_IDEMPOTENCY_TOTAL_BYTES

theorem validateReceipts_eq_ok_iff :
    validateReceipts receipts sequence = .ok receipts.size ↔ ReceiptsValid receipts sequence := by
  unfold validateReceipts
  constructor
  · intro h
    split at h
    · cases h
    · obtain ⟨_, heach, h⟩ := of_bind h
      split at h
      · cases h
      · refine ⟨by omega, fun p hp => ?_, by omega⟩
        exact validateReceipt_eq_ok_iff.mp (forM_eq_ok_iff.mp heach p hp)
  · rintro ⟨hcount, heach, htotal⟩
    rw [if_neg (Nat.not_lt.mpr hcount)]
    refine bind_eq_ok.mpr ⟨(), forM_eq_ok_iff.mpr fun p hp =>
      validateReceipt_eq_ok_iff.mpr (heach p hp), ?_⟩
    rw [if_neg (Nat.not_lt.mpr htotal)]

/-- A check that succeeds returns the size. -/
theorem validateReceipts_eq_size {size : ℕ}
    (h : validateReceipts receipts sequence = .ok size) : size = receipts.size := by
  unfold validateReceipts at h
  obtain ⟨-, h⟩ := of_refused h
  obtain ⟨_, -, h⟩ := of_bind h
  obtain ⟨-, h⟩ := of_refused h
  cases h
  rfl

theorem prepareNewReceipt_eq_ok
    (h : prepareNewReceipt receipts receipt = .ok admitted) : (∃ warnings, admitted =
      { receipt with response := { receipt.response with warnings := warnings } }) ∧
      admitted.size ≤ MAX_IDEMPOTENCY_RECEIPT_BYTES ∧
      receipts.length < MAX_IDEMPOTENCY_RECEIPTS ∧
      receipts.size + admitted.size ≤ MAX_IDEMPOTENCY_TOTAL_BYTES := by
  unfold prepareNewReceipt at h
  dsimp only at h
  obtain ⟨-, h⟩ := of_refused h
  obtain ⟨hsize, h⟩ := of_refused h
  obtain ⟨hcapacity, h⟩ := of_refused h
  obtain ⟨hcount, htotal⟩ := not_or.mp hcapacity
  cases h
  refine ⟨?_, Nat.not_lt.mp hsize, Nat.lt_of_not_le hcount, Nat.not_lt.mp htotal⟩
  unfold withCapacityWarning
  dsimp only
  split
  · exact ⟨_, rfl⟩
  · exact ⟨receipt.response.warnings, rfl⟩

/-- **What is admitted is accepted when it is loaded**: with an admitted receipt under a
new key, the map stays valid at the sequence of the receipt. -/
theorem ReceiptsValid.insert (h : ReceiptsValid receipts sequence)
    (hnew : receipts.lookup key = none) (hkey : validateKey key = .ok ())
    (hdigest : validateDigest receipt.digest = .ok ())
    (hsummaries : validateSummaries receipt.response.statements = .ok ())
    (hresponse : receipt.response.ok = true ∧ receipt.response.error = none)
    (hsequence : sequence ≤ receipt.committedSequence)
    (hadmitted : prepareNewReceipt receipts receipt = .ok admitted) :
    ReceiptsValid (assocInsert key admitted receipts) receipt.committedSequence := by
  obtain ⟨⟨warnings, hsame⟩, hsize, hcount, htotal⟩ := prepareNewReceipt_eq_ok hadmitted
  have hperm := assocInsert_perm admitted hnew
  refine ⟨?_, fun p hp => ?_, ?_⟩
  · rw [hperm.length_eq, List.length_cons]
    exact hcount
  · rcases List.mem_cons.mp (hperm.mem_iff.mp hp) with rfl | hp
    · rw [hsame] at hsize ⊢
      exact ⟨hkey, hdigest, hsummaries, hresponse, le_refl _, hsize⟩
    · have hvalid := h.each p hp
      exact ⟨hvalid.key, hvalid.digest, hvalid.summaries, hvalid.response,
        hvalid.sequence.trans hsequence, hvalid.size⟩
  · have hsum : ReceiptMap.size (assocInsert key admitted receipts) =
        admitted.size + receipts.size := by
      unfold ReceiptMap.size
      rw [(hperm.map fun p => p.2.size).sum_nat, List.map_cons, List.sum_cons]
    rw [hsum]
    omega

theorem receiptsValid_nil (sequence : ℕ) : ReceiptsValid ([] : ReceiptMap Detail) sequence :=
  ⟨Nat.zero_le _, fun _ h => (by cases h), Nat.zero_le _⟩

/-- Fewer receipts stay valid, also at a later sequence. -/
theorem ReceiptsValid.sublist {kept : ReceiptMap Detail} {sequence' : ℕ}
    (h : ReceiptsValid receipts sequence) (hkept : kept.Sublist receipts)
    (hsequence : sequence ≤ sequence') : ReceiptsValid kept sequence' := by
  refine ⟨hkept.length_le.trans h.count, fun p hp => ?_, ?_⟩
  · have hvalid := h.each p (hkept.subset hp)
    exact ⟨hvalid.key, hvalid.digest, hvalid.summaries, hvalid.response,
      hvalid.sequence.trans hsequence, hvalid.size⟩
  · have hle : kept.size ≤ receipts.size := (hkept.map _).sum_le_sum fun _ _ => Nat.zero_le _
    exact hle.trans h.total

/-! ## What is stored is loaded -/

/-- The text of the receipt is read. -/
def IdempotencyReceipt.Readable (receipt : IdempotencyReceipt Detail) : Prop :=
  ReceiptEncoding.fromSlice (ReceiptEncoding.encodedReceipt receipt) = some receipt

theorem decodeReceipt_encodeReceipt {version : UInt16} {read : IdempotencyReceipt Detail} :
    decodeReceipt (encodeReceipt receipt version) version = .ok read ↔
      read = receipt ∧ receipt.Readable := by
  simp only [decodeReceipt, encodeReceipt, ne_eq, not_true_eq_false, if_false,
    IdempotencyReceipt.Readable]
  cases hread : ReceiptEncoding.fromSlice (ReceiptEncoding.encodedReceipt receipt) with
  | none => simp [fail]
  | some found =>
    obtain rfl := ReceiptEncoding.eq_of_fromSlice hread
    simp [eq_comm]

/-- What is loaded is what was stored. -/
theorem loadReceipts_eq_ok {version : UInt16} {storedBytes : ℕ} {loaded : ReceiptMap Detail}
    (h : loadReceipts version storedBytes receipts = .ok loaded) :
    loaded = receipts ∧ ∀ p ∈ receipts, p.2.Readable := by
  induction receipts generalizing storedBytes loaded with
  | nil =>
    cases h
    exact ⟨rfl, fun _ hp => (by cases hp)⟩
  | cons p rest ih =>
    unfold loadReceipts at h
    obtain ⟨-, h⟩ := of_refused h
    obtain ⟨-, h⟩ := of_refused h
    obtain ⟨read, hread, rest', hrest, h⟩ := of_bind₂ h
    cases h
    obtain ⟨rfl, hreadable⟩ := decodeReceipt_encodeReceipt.mp hread
    obtain ⟨rfl, hrest⟩ := ih hrest
    exact ⟨rfl, List.forall_mem_cons.mpr ⟨hreadable, hrest⟩⟩

theorem loadReceipts_of_readable {version : UInt16} {storedBytes : ℕ}
    (htotal : storedBytes + receipts.size ≤ MAX_IDEMPOTENCY_TOTAL_BYTES)
    (hsizes : ∀ p ∈ receipts, p.2.size ≤ MAX_IDEMPOTENCY_RECEIPT_BYTES)
    (hreadable : ∀ p ∈ receipts, p.2.Readable) :
    loadReceipts version storedBytes receipts = .ok receipts := by
  induction receipts generalizing storedBytes with
  | nil => rfl
  | cons p rest ih =>
    obtain ⟨hsize, hsizes⟩ := List.forall_mem_cons.mp hsizes
    obtain ⟨hread, hreadable⟩ := List.forall_mem_cons.mp hreadable
    have hsum : ReceiptMap.size (p :: rest) = p.2.size + ReceiptMap.size rest := rfl
    have hlen : ReceiptEncoding.length (encodeReceipt p.2 version).body + DURABLE_CODEC_OVERHEAD =
        p.2.size := rfl
    have hrest : loadReceipts version (storedBytes + p.2.size) rest = .ok rest :=
      ih (by omega) hsizes hreadable
    unfold loadReceipts
    simp only [hlen, decodeReceipt_encodeReceipt.mpr ⟨rfl, hread⟩]
    rw [if_neg (by omega), if_neg (by omega)]
    exact bind_eq_ok.mpr ⟨p.2, rfl, bind_eq_ok.mpr ⟨rest, hrest, rfl⟩⟩

/-- **A valid map is loaded exactly if every receipt can be read.** -/
theorem loadReceipts_eq_ok_iff (h : ReceiptsValid receipts sequence) (version : UInt16) :
    loadReceipts version 0 receipts = .ok receipts ↔ ∀ p ∈ receipts, p.2.Readable :=
  ⟨fun hok => (loadReceipts_eq_ok hok).2, loadReceipts_of_readable (by simpa using h.total)
    fun p hp => (h.each p hp).size⟩

end UnionId.Scripts
