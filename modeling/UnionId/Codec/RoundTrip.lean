import UnionId.Codec
import UnionId.Model.Typing

/-!
# Encoded values read back

What the encoder appends for a value of a type is read back as that value,
whatever follows. The proof goes along the nesting depth: scalars are words, and the
loops over items, fields and entries keep that everything written so far is read
back.

## Main results

* `encodeInner_emits` — what is written for a typed value is read back.
* `decodeValue_encodeValueVersion` — the round trip of framed values.
-/
namespace UnionId.Codec

open Lib Catalog List

/-! ## Words -/

variable {bytes : List UInt8}

theorem emits_putBytes {P : List UInt8 → Prop} (h : P bytes) :
    Emits MAX_VALUE_BYTES (putBytes bytes) P := .put h

/-- Some bytes and what is made of them. -/
theorem reads_take {n : ℕ} {α : Type} {g : List UInt8 → Decoder α} {a : α}
    (hn : bytes.length = n) (hg : Reads (g bytes) [] a) : Reads (take n >>= g) bytes a := by
  have h := (Reads.takeBytes truncated hn).bind hg
  rwa [append_nil] at h

/-- A big-endian word and what is made of its number. -/
theorem reads_word {n x : ℕ} {α : Type} {g : ℕ → Decoder α} {a : α} (hx : x < 256 ^ n)
    (hg : Reads (g x) [] a) :
    Reads (do let bytes ← take n; g (beNat bytes) : Decoder α) (beBytes n x) a := by
  refine reads_take (length_beBytes n x) ?_
  rwa [beNat_beBytes hx]

theorem reads_getU8 (x : UInt8) : Reads getU8 [x] x := by
  have h := (Reads.takeBytes truncated (show [x].length = 1 from rfl)).map
    fun bytes => UInt8.ofNat (beNat bytes)
  rw [beNat, beNat, length_nil, pow_zero, mul_one, Nat.add_zero, UInt8.ofNat_toNat] at h
  exact h

theorem reads_getU16 (x : UInt16) : Reads getU16 (beBytes 2 x.toNat) x := by
  refine reads_word (g := fun k => pure (UInt16.ofNat k)) (by simpa using x.toNat_lt) ?_
  rw [UInt16.ofNat_toNat]
  exact .pure x

theorem reads_getU64 (x : UInt64) : Reads getU64 (beBytes 8 x.toNat) x := by
  refine reads_word (g := fun k => pure (UInt64.ofNat k)) (by simpa using x.toNat_lt) ?_
  rw [UInt64.ofNat_toNat]
  exact .pure x

theorem reads_getLength {len : ℕ} (h : len < 2 ^ 32) : Reads getLength (beBytes 4 len) len :=
  reads_word (g := fun k => pure k) (by simpa using h) (.pure len)

theorem emits_putU64 (x : UInt64) :
    Emits MAX_VALUE_BYTES (putU64 x) fun code => code = beBytes 8 x.toNat :=
  emits_putBytes rfl

theorem emits_putLen (len : ℕ) (path : Message) :
    Emits MAX_VALUE_BYTES (putLen len path) fun code =>
      code.length = 4 ∧ Reads getLength code len :=
  .guard fun h => emits_putBytes ⟨length_beBytes 4 len, reads_getLength (not_le.mp h)⟩

theorem fromUtf8_utf8 (s : String) : fromUtf8 (utf8 s) = some s := by
  have h : (⟨(utf8 s).toArray⟩ : ByteArray) = s.toByteArray := by
    rw [utf8, Array.toArray_toList]
    rfl
  rw [fromUtf8, h, String.fromUTF8?, dif_pos s.isValidUTF8]
  rfl

theorem utf8_of_fromUtf8 {s : String} (h : fromUtf8 bytes = some s) :
    utf8 s = bytes := by
  unfold fromUtf8 String.fromUTF8? at h
  split at h
  · cases h
    rfl
  · cases h

/-! ## Loops -/

/-- What is written for a value is not empty and is read back as the value. -/
def ReadsBack (decode : Message → Decoder Value) (v : Value) (code : List UInt8) : Prop :=
  0 < code.length ∧ ∀ path, Reads (decode path) code v

section Loops
variable {encode : ScalarType → Value → Message → Encoder Unit}
  {decode : ScalarType → Message → Decoder Value} (decode) in
theorem encodeItems_emits {types : List ScalarType} {values : List Value}
    (h : Forall₂ (fun ty v => ∀ path,
      Emits MAX_VALUE_BYTES (encode ty v path) (ReadsBack (decode ty) v)) types values)
    (label : ℕ → Message) (i : ℕ) :
    Emits MAX_VALUE_BYTES (encodeItems encode label i types values) fun code =>
      types.length ≤ code.length ∧ ∀ label j,
        Reads (decodeItems decode label j types) code values := by
  induction h generalizing i with
  | nil => exact .pure ⟨le_rfl, fun _ _ => .pure []⟩
  | @cons ty v types values hv _ ih =>
    refine Emits.bind (hv (label i)) (ih (i + 1)) ?_
    rintro code code' ⟨hpos, hread⟩ ⟨hlen, hreads⟩
    refine ⟨by rw [length_cons, length_append]; omega, fun label j => ?_⟩
    exact (hread _).bind ((hreads label (j + 1)).map (v :: ·))

/-- The fields that columns select, one after the other. -/
def collect (fields : Fields) (columns : List Column) (acc : Fields) : Fields :=
  columns.foldl (fun acc c => (fields.lookup c.name).elim acc fun v => assocInsert c.name v acc) acc

variable {fields : Fields}

theorem collect_sorted (columns : List Column) {acc : Fields}
    (h : KeysSorted acc) : KeysSorted (collect fields columns acc) := by
  induction columns generalizing acc with
  | nil => exact h
  | cons c columns ih =>
    rw [collect, foldl_cons]
    cases fields.lookup c.name with
    | none => exact ih h
    | some v => exact ih (keysSorted_assocInsert c.name v h)

theorem lookup_collect (columns : List Column) {acc : Fields} {k : String}
    (h : ∀ c ∈ columns, ∃ v, fields.lookup c.name = some v) :
    (collect fields columns acc).lookup k =
      if ∃ c ∈ columns, c.name = k then fields.lookup k else acc.lookup k := by
  induction columns generalizing acc with
  | nil => simp [collect]
  | cons c columns ih =>
    obtain ⟨⟨v, hv⟩, hrest⟩ := forall_mem_cons.mp h
    have hstep : collect fields (c :: columns) acc =
        collect fields columns (assocInsert c.name v acc) := by
      simp [collect, hv]
    rw [hstep, ih hrest, lookup_assocInsert]
    by_cases hk : ∃ c ∈ columns, c.name = k
    · rw [if_pos hk, if_pos (hk.imp fun _ h => ⟨mem_cons_of_mem _ h.1, h.2⟩)]
    · by_cases hc : k = c.name
      · subst hc
        rw [if_neg hk, if_pos rfl, if_pos ⟨c, mem_cons_self .., rfl⟩, hv]
      · have hnone : ¬∃ c' ∈ c :: columns, c'.name = k := by
          rintro ⟨c', hc', rfl⟩
          obtain rfl | hc' := mem_cons.mp hc'
          · exact hc rfl
          · exact hk ⟨c', hc', rfl⟩
        rw [if_neg hk, if_neg hc, if_neg hnone]

theorem collect_eq {columns : List Column} (hsorted : KeysSorted fields)
    (hknown : ∀ p ∈ fields, ∃ c ∈ columns, c.name = p.1)
    (hall : ∀ c ∈ columns, ∃ v, fields.lookup c.name = some v) :
    collect fields columns [] = fields := by
  refine eq_of_lookup_eq (collect_sorted columns keysSorted_nil) hsorted fun k => ?_
  rw [lookup_collect columns hall]
  split
  · rfl
  · rename_i hk
    cases hlook : fields.lookup k with
    | none => rfl
    | some v => exact absurd (hknown _ (mem_of_lookup hlook)) hk

variable (decode) in
theorem encodeColumns_emits {columns cs : List Column} (seen : List UInt64)
    (hids : (columns.map fun c => c.id).Nodup) (hmem : ∀ c ∈ cs, c ∈ columns)
    (hnodup : (cs.map fun c => c.id).Nodup) (hfresh : ∀ c ∈ cs, c.id ∉ seen)
    (h : ∀ c ∈ cs, ∃ v, fields.lookup c.name = some v ∧ ∀ path,
      Emits MAX_VALUE_BYTES (encode c.ty v path) (ReadsBack (decode c.ty) v)) (path : Message) :
    Emits MAX_VALUE_BYTES (encodeColumns encode path fields cs) fun code => ∀ path acc,
      Reads (decodeColumns decode path columns cs.length seen acc) code
        (collect fields cs acc) := by
  induction cs generalizing seen with
  | nil => exact .pure fun _ acc => .pure acc
  | cons c cs ih =>
    obtain ⟨⟨v, hlook, hv⟩, h⟩ := forall_mem_cons.mp h
    obtain ⟨hc, hmem⟩ := forall_mem_cons.mp hmem
    obtain ⟨hcfresh, hfresh⟩ := forall_mem_cons.mp hfresh
    obtain ⟨hcnot, hnodup⟩ := nodup_cons.mp hnodup
    have hrest := ih (c.id :: seen) hmem hnodup (fun c' hc' hin => by
      obtain heq | hin := mem_cons.mp hin
      · exact hcnot (mem_map.mpr ⟨c', hc', heq⟩)
      · exact hfresh c' hc' hin) h
    have hfield : Emits MAX_VALUE_BYTES (encodeField encode path fields c)
        (ReadsBack (decode c.ty) v) := by
      simp only [encodeField, hlook]
      exact hv _
    refine Emits.bind (emits_putU64 c.id) (hfield.seq hrest) ?_
    rintro _ _ rfl ⟨front, back, rfl, ⟨-, hfront⟩, hback⟩ path' acc
    refine (reads_getU64 c.id).bind ?_
    rw [if_neg hcfresh, (find?_key_eq_some hids).mpr ⟨hc, rfl⟩, collect, foldl_cons, hlook]
    exact (hfront _).bind (hback path' _)

variable (decode) in
theorem encodeEntries_emits {inner : ScalarType} {entries : Fields} (previous : Option String)
    (hkeys : ∀ e ∈ entries, (utf8 e.1).length ≤ MAX_MAP_KEY_BYTES)
    (hsorted : KeysSorted entries) (hprev : ∀ k ∈ previous, ∀ e ∈ entries, k < e.1)
    (h : ∀ e ∈ entries, ∀ path,
      Emits MAX_VALUE_BYTES (encode inner e.2 path) (ReadsBack (decode inner) e.2))
    (path : Message) :
    Emits MAX_VALUE_BYTES (encodeEntries encode path inner entries) fun code => ∀ path acc,
      (∀ p ∈ acc, ∀ e ∈ entries, p.1 < e.1) →
        Reads (decodeEntries decode path inner entries.length previous acc) code
          (acc ++ entries) := by
  induction entries generalizing previous with
  | nil => exact .pure fun _ acc _ => by rw [append_nil]; exact .pure acc
  | cons e entries ih =>
    obtain ⟨key, value⟩ := e
    obtain ⟨hkey, hkeys⟩ := forall_mem_cons.mp hkeys
    obtain ⟨hv, h⟩ := forall_mem_cons.mp h
    obtain ⟨hlt, hsorted⟩ := pairwise_cons.mp hsorted
    have hrest := ih (some key) hkeys hsorted (by rintro _ ⟨⟩; exact hlt) h
    refine Emits.guard fun _ => Emits.bind (emits_putLen _ path)
      ((emits_putBytes (P := (· = utf8 key)) rfl).seq ((hv _).seq hrest)) ?_
    rintro code _ ⟨-, hcode⟩ ⟨_, _, rfl, rfl, front, back, rfl, ⟨-, hfront⟩, hback⟩ path' acc hacc
    refine hcode.bind ?_
    rw [if_neg (not_lt.mpr hkey)]
    refine (Reads.takeBytes truncated rfl).bind ?_
    have hordered : (previous.any fun previous => decide (key ≤ previous)) = false := by
      cases previous with
      | none => rfl
      | some k => simpa using hprev k rfl _ (mem_cons_self ..)
    have hlast : ∀ p ∈ acc, p.1 < key := fun p hp => hacc p hp _ (mem_cons_self ..)
    rw [fromUtf8_utf8]
    dsimp only
    rw [hordered, if_neg Bool.false_ne_true, ← singleton_append, ← append_assoc]
    refine (hfront _).bind ?_
    rw [assocInsert_of_last hlast]
    refine hback path' _ fun p hp e he => ?_
    obtain hp | hp := mem_append.mp hp
    · exact hacc p hp e (mem_cons_of_mem _ he)
    · obtain rfl := mem_singleton.mp hp
      exact hlt e he

end Loops

/-! ## Values -/

section Values
variable {catalog : Catalog} {version : UInt16} {n : ℕ} {ty : ScalarType} {v : Value}

theorem emits_word {decode : Message → Decoder Value} {bytes : List UInt8} (hpos : 0 < bytes.length)
    (h : ∀ path, Reads (decode path) bytes v) :
    Emits MAX_VALUE_BYTES (putBytes bytes) (ReadsBack decode v) :=
  emits_putBytes ⟨hpos, h⟩

theorem forall₂_replicate {R : ScalarType → Value → Prop} {values : List Value}
    (h : ∀ v ∈ values, R ty v) : Forall₂ R (replicate values.length ty) values := by
  induction values with
  | nil => exact .nil
  | cons v values ih =>
    obtain ⟨hv, h⟩ := forall_mem_cons.mp h
    exact .cons hv (ih h)

theorem emits_framed {decode : Message → Decoder Value} {bytes : List UInt8} {path : Message}
    (h : ∀ path code, Reads getLength code bytes.length → Reads (decode path) (code ++ bytes) v) :
    Emits MAX_VALUE_BYTES (do putLen bytes.length path; putBytes bytes) (ReadsBack decode v) := by
  refine Emits.bind (emits_putLen bytes.length path) (emits_putBytes (P := (· = bytes)) rfl) ?_
  rintro code _ ⟨hlen, hcode⟩ rfl
  exact ⟨by rw [length_append]; omega, fun path => h path code hcode⟩

/-- The word of a 64-bit machine integer. -/
theorem reads_int64 {g : Int64 → Decoder Value} {x : Int64} (hg : Reads (g x) [] v) :
    Reads (do let bytes ← take 8; g (.ofBitVec (.ofNat 64 (beNat bytes))) : Decoder Value)
      (beBytes 8 x.toBitVec.toNat) v := by
  refine reads_word (g := fun k => g (.ofBitVec (.ofNat 64 k))) (by simpa using x.toBitVec.isLt) ?_
  rwa [BitVec.ofNat_toNat, BitVec.setWidth_eq]

theorem reads_liftScalar {α : Type} {x : Result α} {a : α} {g : α → Decoder Value} (hx : x = .ok a)
    (hg : Reads (g a) [] v) : Reads (liftScalar x >>= g) [] v := by
  subst hx
  exact hg

theorem ofInt_toInt {d : Decimal} :
    (BitVec.ofNat 128 (BitVec.ofInt 128 d.coefficient).toNat).toInt =
    d.coefficient := by
  have := d.bounded
  rw [BitVec.ofNat_toNat, BitVec.setWidth_eq, BitVec.toInt_ofInt_eq_self (by decide)] <;> omega

/-- **What is written for a typed value is read back.** -/
theorem encodeInner_emits (hc : catalog.Everywhere ScalarType.UniqueIds)
    (hty : ty.Everywhere ScalarType.UniqueIds) (hv : catalog.HasType n ty v) (path : Message) :
    Emits MAX_VALUE_BYTES (encodeInner catalog version n ty v path)
      (ReadsBack (decodeInner catalog version n ty) v) := by
  induction n generalizing ty v path with
  | zero => cases hv
  | succ n ih =>
    cases ty with
    | int =>
      obtain ⟨x, rfl⟩ := hv
      exact emits_word (by simp) fun path => reads_int64 (g := fun x => pure (.int x)) (.pure _)
    | float =>
      obtain ⟨bits, rfl, hfinite, hzero⟩ := hv
      simp only [encodeInner, hfinite, if_true, hzero]
      refine emits_word (by simp) fun path => ?_
      refine reads_word (g := fun k => if !Float64.isFinite (UInt64.ofNat k) then
          throw (codecError (path ++ ": float must be finite"))
        else pure (Value.float (Float64.normalizeZero (UInt64.ofNat k))))
        (n := 8) (x := bits.toNat) (by simpa using bits.toNat_lt) ?_
      rw [UInt64.ofNat_toNat, hfinite, hzero]
      exact .pure _
    | bool =>
      obtain ⟨b, rfl⟩ := hv
      refine emits_word (by simp) fun path => ?_
      cases b
      · exact (reads_getU8 0).bind (.pure _)
      · exact (reads_getU8 1).bind (.pure _)
    | text =>
      obtain ⟨s, rfl⟩ := hv
      refine emits_framed fun path code hcode => hcode.bind ?_
      refine reads_take rfl ?_
      rw [fromUtf8_utf8]
      exact .pure _
    | uuid =>
      obtain ⟨u, rfl⟩ := hv
      refine emits_word (by rw [u.length_eq]; decide) fun path => ?_
      refine reads_take u.length_eq ?_
      rw [dif_pos u.length_eq]
      exact .pure _
    | date =>
      obtain ⟨d, rfl⟩ := hv
      refine emits_word (by simp) fun path => reads_word
        (g := fun k => liftScalar (Date.fromEpochDays (.ofBitVec (.ofNat 32 k))) >>= _)
        (by simpa using d.epochDays.toBitVec.isLt) ?_
      rw [BitVec.ofNat_toNat, BitVec.setWidth_eq]
      exact reads_liftScalar (Date.fromEpochDays_eq_ok.mpr rfl) (.pure _)
    | timestamp =>
      obtain ⟨t, rfl⟩ := hv
      exact emits_word (by simp) fun path => reads_int64
        (g := fun x => liftScalar (Timestamp.fromEpochMicroseconds x) >>= _)
        (reads_liftScalar (Timestamp.fromEpochMicroseconds_eq_ok.mpr rfl) (.pure _))
    | duration =>
      obtain ⟨d, rfl⟩ := hv
      exact emits_word (by simp) fun path => reads_int64 (g := fun x =>
        pure (.duration ⟨x⟩)) (.pure _)
    | decimal precision scale =>
      obtain ⟨d, rfl, hd⟩ := hv
      refine emits_word (by simp) fun path => reads_word
        (g := fun k => liftScalar (Decimal.new (BitVec.ofNat 128 k).toInt precision scale) >>= _)
        (by simpa using (BitVec.ofInt 128 d.coefficient).isLt) ?_
      rw [ofInt_toInt]
      exact reads_liftScalar (Decimal.new_of_rescale hd) (.pure _)
    | bytes =>
      obtain ⟨b, rfl⟩ := hv
      refine emits_framed fun path code hcode => hcode.bind ?_
      exact reads_take (g := fun bytes => liftScalar (Bytes.new bytes) >>= _) rfl
        (reads_liftScalar (Bytes.new_eq_ok.mpr rfl) (.pure _))
    | enum variants =>
      obtain ⟨variant, hmem, args, rfl, hargs⟩ := hv
      have hfind : (variants.find? fun d => d.id = variant.id) = some variant :=
        (find?_key_eq_some hty.here).mpr ⟨hmem, rfl⟩
      have hitems := encodeItems_emits (decodeInner catalog version n)
        (forall₂_imp_mem hargs fun ty hmemTy w hw => ih (hty.arg hmem hmemTy) hw)
      simp only [encodeInner, encodeEnum, hfind, hargs.length_eq, ne_eq,
        not_true_eq_false, if_false]
      refine Emits.bind (emits_putU64 _) ((emits_putLen _ path).seq (hitems _ 0)) ?_
      rintro _ _ rfl ⟨front, back, rfl, ⟨hfour, hfront⟩, -, hback⟩
      refine ⟨by simp, fun path' => (reads_getU64 variant.id).bind ?_⟩
      rw [hfind]
      refine hfront.bind ?_
      rw [if_neg (not_not.mpr hargs.length_eq.symm)]
      exact (hback _ 0).map fun args => Value.enum variant.name args variant.id
    | record columns =>
      obtain ⟨fields, rfl, hsorted, hknown, hcols⟩ := hv
      have hperm : (columnsById columns).Perm columns := perm_insertionSort _ columns
      have hmem : ∀ c ∈ columnsById columns, c ∈ columns := fun c => hperm.mem_iff.mp
      have hfields := encodeColumns_emits (decodeInner catalog version n) []
        hty.here hmem ((hperm.map _).nodup_iff.mpr hty.here) (by simp)
        (fun c hc => (hcols c (hmem c hc)).imp fun v hv =>
          ⟨hv.1, fun path => ih (hty.field (hmem c hc)) hv.2 path⟩) path
      refine Emits.bind (emits_putLen _ path) hfields ?_
      rintro code code' ⟨hfour, hcode⟩ hcode'
      refine ⟨by rw [length_append]; omega, fun path' => hcode.bind ?_⟩
      rw [if_neg (by simp)]
      have hread := hcode' path' []
      rw [collect_eq hsorted (fun p hp => (hknown p hp).imp fun c hc =>
        ⟨hperm.mem_iff.mpr hc.1, hc.2⟩)
        (fun c hc => (hcols c (hmem c hc)).imp fun v hv => hv.1), hperm.length_eq] at hread
      exact hread.map Value.record
    | tuple types =>
      obtain ⟨items, rfl, hitems⟩ := hv
      have hemits := encodeItems_emits (decodeInner catalog version n)
        (forall₂_imp_mem hitems fun ty hmemTy w hw => ih (hty.item hmemTy) hw)
      simp only [encodeInner, hitems.length_eq, ne_eq, not_true_eq_false, if_false]
      refine Emits.bind (emits_putLen _ path) (hemits _ 0) ?_
      rintro code code' ⟨hfour, hcode⟩ ⟨-, hcode'⟩
      refine ⟨by rw [length_append]; omega, fun path' => hcode.bind ?_⟩
      rw [if_neg (not_not.mpr hitems.length_eq.symm)]
      exact (hcode' _ 0).map Value.tuple
    | option item =>
      obtain rfl | ⟨x, rfl, hx⟩ := hv
      · exact emits_word (by simp) fun path => (reads_getU8 0).bind (.pure _)
      · refine Emits.bind (emits_putBytes (P := (· = [1])) rfl) (ih hty.option hx path) ?_
        rintro _ code rfl ⟨-, hcode⟩
        refine ⟨by simp, fun path' => (reads_getU8 1).bind ?_⟩
        exact (hcode path').map fun v => Value.option (some v)
    | list item =>
      obtain ⟨items, rfl, hitems⟩ := hv
      have hemits := encodeItems_emits (decodeInner catalog version n)
        (forall₂_replicate fun v hv => ih hty.list (hitems v hv))
      refine Emits.guard fun hcount => Emits.bind (emits_putLen _ path) (hemits _ 0) ?_
      rintro code code' ⟨hfour, hcode⟩ ⟨hlen, hcode'⟩
      rw [length_replicate] at hlen
      refine ⟨by rw [length_append]; omega, fun path' => hcode.bind ?_⟩
      rw [if_neg hcount]
      exact Reads.requireBytes hlen ((hcode' _ 0).map Value.list)
    | map item =>
      obtain ⟨entries, rfl, hsorted, hlen, hmem⟩ := hv
      have hemits := encodeEntries_emits (decodeInner catalog version n) none
        (fun e he => (hmem e he).1) hsorted (by simp) (fun e he => ih hty.map (hmem e he).2) path
      refine Emits.guard fun hversion => Emits.guard fun hcount =>
        Emits.bind (emits_putLen _ path) hemits ?_
      rintro code code' ⟨hfour, hcode⟩ hcode'
      refine ⟨by rw [length_append]; omega, fun path' => ?_⟩
      rw [decodeInner, if_neg hversion]
      refine hcode.bind ?_
      rw [if_neg hcount]
      exact (hcode' path' [] (by simp)).map Value.map
    | named name => cases hv
    | ref id =>
      obtain ⟨inner, definition, rfl, hdef, hinner⟩ := hv
      simp only [encodeInner, ne_eq, not_true_eq_false, if_false, hdef]
      refine Emits.bind (emits_putU64 id) (ih (hc id definition hdef) hinner path) ?_
      rintro _ code rfl ⟨-, hcode⟩
      refine ⟨by simp, fun path' => (reads_getU64 id).bind ?_⟩
      rw [if_neg (by simp), hdef]
      exact (hcode path').map (Value.named id)

end Values

/-! ## Framed values -/

section Frame
variable {catalog : Catalog} {version : UInt16} {ty : ScalarType} {v : Value} {bytes : List UInt8}

/-- The versions that the codec knows. -/
def IsVersion (version : UInt16) : Prop :=
  version = VALUE_CODEC_VERSION ∨ version = PRODUCTION_VALUE_CODEC_VERSION ∨
    version = MAP_VALUE_CODEC_VERSION

/-- The frame of a value is read back when its version covers the type. -/
theorem reads_header {required : Bool} (hversion : IsVersion version)
    (hrequired : requiresProtocolV2 catalog ty = .ok required)
    (hcovers : ¬(required = true ∧ version < PRODUCTION_VALUE_CODEC_VERSION)) :
    Reads (decodeHeader catalog ty) (MAGIC ++ beBytes 2 version.toNat) version := by
  refine (Reads.takeBytes truncated rfl).bind ?_
  rw [if_neg (by simp), ← append_nil (beBytes 2 _)]
  refine (reads_getU16 version).bind ?_
  have hknown : ¬(version ≠ VALUE_CODEC_VERSION ∧ version ≠ PRODUCTION_VALUE_CODEC_VERSION ∧
      version ≠ MAP_VALUE_CODEC_VERSION) := by
    rintro ⟨h₁, h₂, h₃⟩
    obtain h | h | h := hversion
    · exact h₁ h
    · exact h₂ h
    · exact h₃ h
  rw [if_neg hknown, hrequired]
  change Reads (if _ then _ else _) _ _
  rw [if_neg hcovers]
  exact .pure version

/-- What is encoded for a value is decoded as its coerced form. -/
theorem decodeValue_of_encode {w : Value} (hids : catalog.Everywhere ScalarType.UniqueIds)
    (htyIds : ty.Everywhere ScalarType.UniqueIds) (hversion : IsVersion version)
    (hw : catalog.coerce v ty "value" = .ok w) (htyped : catalog.HasType MAX_DEPTH ty w)
    (h : encodeValueVersion catalog ty v version = .ok bytes) :
    decodeValue catalog ty bytes = .ok w := by
  obtain ⟨required, hrequired, h⟩ := of_bind h
  obtain ⟨hcovers, h⟩ := of_refused h
  obtain ⟨w', hw', h⟩ := of_bind h
  obtain rfl : w = w' := Except.ok.inj (hw.symm.trans hw')
  obtain ⟨⟨_, out⟩, hout, rfl⟩ := of_bind_pure h
  have hemits := (emits_putBytes (P := (· = MAGIC)) rfl).seq
    ((emits_putBytes (P := (· = beBytes 2 version.toNat)) rfl).seq
      (@encodeInner_emits catalog version _ _ _ hids htyIds htyped "value"))
  obtain ⟨hlen, _, rfl, _, _, rfl, rfl, _, code, rfl, rfl, -, hcode⟩ :=
    hemits [] _ (Nat.zero_le _) hout
  have hread := (reads_header hversion hrequired hcovers).bind
    (f := fun version => decodeInner catalog version MAX_DEPTH ty "value") (hcode "value")
  have hrun := hread []
  rw [append_nil, append_assoc] at hrun
  rw [decodeValue, if_neg (not_lt.mpr hlen), hrun, ok_bind]
  rfl

/-- **Encoded values round trip.** Decoding what was encoded returns the coerced
value. -/
theorem decodeValue_encodeValueVersion (hnames : catalog.Everywhere ScalarType.UniqueFieldNames)
    (hids : catalog.Everywhere ScalarType.UniqueIds)
    (htyNames : ty.Everywhere ScalarType.UniqueFieldNames)
    (htyIds : ty.Everywhere ScalarType.UniqueIds) (hversion : IsVersion version)
    (h : encodeValueVersion catalog ty v version = .ok bytes) :
    ∃ w, catalog.coerce v ty "value" = .ok w ∧ decodeValue catalog ty bytes = .ok w := by
  have hcoerce : ∃ w, catalog.coerce v ty "value" = .ok w := by
    obtain ⟨required, -, h⟩ := of_bind h
    obtain ⟨-, h⟩ := of_refused h
    obtain ⟨w, hw, -⟩ := of_bind h
    exact ⟨w, hw⟩
  obtain ⟨w, hw⟩ := hcoerce
  exact ⟨w, hw, decodeValue_of_encode hids htyIds hversion hw
    (hasType_of_coerceInner hnames htyNames hw) h⟩

theorem decodeValue_encodeValueVersion_negative_zero :
    ∃ w, Catalog.empty.coerce (.option (some (.float 0x8000000000000000)))
      (.option .float) "value" =
        .ok w ∧
      decodeValue .empty (.option .float) (MAGIC ++ [0, 1] ++ [1] ++ replicate 8 0) = .ok w :=
  decodeValue_encodeValueVersion
    (v := .option (some (.float 0x8000000000000000))) (everywhere_empty _) (everywhere_empty _)
    (.node trivial (by simpa [ScalarType.parts] using .leaf trivial rfl))
    (.node trivial (by simpa [ScalarType.parts] using .leaf trivial rfl)) (.inl rfl) rfl

/-- A record type that declares one field name twice, at two scales. -/
def doubledField : ScalarType :=
  .record [⟨"a", .decimal 5 2, none, 2⟩, ⟨"a", .decimal 5 3, none, 1⟩]

/-- Distinct identities alone do not give the round trip: the two fields of one name
are written from one value and read back at different scales. An unknown version is
written but not read. -/
theorem encodeValueVersion_not_read_back :
    (∃ v w w' bytes, doubledField.Everywhere ScalarType.UniqueIds ∧
      Catalog.empty.coerce v doubledField "value" = .ok w ∧
      encodeValueVersion .empty doubledField v PRODUCTION_VALUE_CODEC_VERSION = .ok bytes ∧
      decodeValue .empty doubledField bytes = .ok w' ∧ w' ≠ w) ∧
    ∃ bytes, encodeValueVersion .empty .int (.int 5) 7 = .ok bytes ∧
      decodeValue .empty .int bytes =
        .error (codecError ("unsupported value codec version 7" : String)) := by
  refine ⟨⟨.record [("a", .decimal ⟨123, 2, by decide⟩)],
    .record [("a", .decimal ⟨1230, 3, by decide⟩)],
    .record [("a", .decimal ⟨1230, 2, by decide⟩)],
    MAGIC ++ [0, 2] ++ [0, 0, 0, 2] ++ beBytes 8 1 ++ beBytes 16 1230 ++ beBytes 8 2 ++
      beBytes 16 1230, ?_, ?_, ?_, ?_, ?_⟩, MAGIC ++ [0, 7] ++ beBytes 8 5, ?_, ?_⟩
  · refine .node (by simp [doubledField, ScalarType.UniqueIds]) fun part hpart => ?_
    simp only [doubledField, ScalarType.parts, map_cons, map_nil, mem_cons,
      not_mem_nil, or_false] at hpart
    obtain rfl | rfl := hpart <;> exact .leaf trivial rfl
  · rfl
  · rfl
  · rfl
  · simp
  · rfl
  · rfl

end Frame
end UnionId.Codec
