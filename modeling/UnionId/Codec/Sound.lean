import UnionId.Codec.RoundTrip
import UnionId.Model.Define

/-!
# What the decoder accepts

Whatever bytes the decoder takes for a type, the value it makes of them has the type,
and the encoder writes that value again in as many bytes. Record fields may come in
another order and zeros may carry a sign, so the bytes themselves can differ.

## Main results

* `decodeInner_parses` — an accepted value is typed and can be written again.
* `decodeValue_sound` — the same for framed values.
-/
namespace UnionId.Codec

open Lib Catalog List

/-- A value can be written again in as many bytes as it was read from. -/
def Rewrites (encode : Message → Encoder Unit) (code : List UInt8) : Prop :=
  ∃ code', code'.length = code.length ∧ ∀ path, Writes MAX_VALUE_BYTES (encode path) code'

/-! ## Words -/

/-- Some bytes and what is made of them. -/
theorem parses_take {n : ℕ} {α : Type} {g : List UInt8 → Decoder α} {P : α → List UInt8 → Prop}
    (h : ∀ bytes, bytes.length = n → Parses (g bytes) fun a code => P a (bytes ++ code)) :
    Parses (take n >>= g) P :=
  Parses.takeBytes.bind fun bytes code hcode => by
    obtain ⟨rfl, hlen⟩ := hcode
    exact h _ hlen

theorem parses_getU8 : Parses getU8 fun _ code => code.length = 1 :=
  parses_take fun bytes h => .pure (by simpa using h)

theorem parses_getU16 : Parses getU16 fun version code =>
    code.length = 2 ∧ code = beBytes 2 version.toNat :=
  parses_take fun bytes h => .pure ⟨by simpa using h, by
    have hlt := beNat_lt bytes
    rw [h] at hlt
    rw [append_nil, UInt16.toNat_ofNat_of_lt' hlt, ← h, beBytes_beNat]⟩

theorem parses_getU64 : Parses getU64 fun _ code => code.length = 8 :=
  parses_take fun bytes h => .pure (by simpa using h)

theorem parses_getLength : Parses getLength fun len code => code.length = 4 ∧ len < 2 ^ 32 :=
  parses_take fun bytes h => .pure ⟨by simpa using h, by simpa [h] using beNat_lt bytes⟩

theorem writes_putBytes (bytes : List UInt8) : Writes MAX_VALUE_BYTES (putBytes bytes) bytes :=
  .put _ _ _

theorem writes_putLen {len : ℕ} (h : len < 2 ^ 32) (path : Message) :
    Writes MAX_VALUE_BYTES (putLen len path) (beBytes 4 len) := by
  rw [putLen, if_neg (not_le.mpr h)]
  exact writes_putBytes _

theorem parses_liftScalar {α : Type} {x : Result α} {g : α → Decoder Value}
    {P : Value → List UInt8 → Prop} (h : ∀ a, x = .ok a → Parses (g a) P) :
    Parses (liftScalar x >>= g) P := by
  cases x with
  | ok a => exact h a rfl
  | error e => rintro bytes a rest ⟨⟩

/-! ## Loops -/

section Loops
variable {encode : ScalarType → Value → Message → Encoder Unit}
  {decode : ScalarType → Message → Decoder Value} {R : ScalarType → Value → Prop}

theorem decodeItems_parses {types : List ScalarType}
    (h : ∀ ty ∈ types, ∀ path, Parses (decode ty path) fun v code =>
      R ty v ∧ Rewrites (encode ty v) code) (label : ℕ → Message) (i : ℕ) :
    Parses (decodeItems decode label i types) fun values code => Forall₂ R types values ∧
      ∃ code', code'.length = code.length ∧ ∀ label i,
        Writes MAX_VALUE_BYTES (encodeItems encode label i types values) code' := by
  induction types generalizing i with
  | nil => exact .pure ⟨.nil, [], rfl, fun _ _ => .pure _⟩
  | cons ty types ih =>
    obtain ⟨hty, h⟩ := forall_mem_cons.mp h
    refine (hty (label i)).bind ?_
    rintro v code ⟨hv, front, hfront, hwrites⟩
    refine (ih h (i + 1)).map ?_
    rintro values code' ⟨hvalues, back, hback, hrest⟩
    refine ⟨.cons hv hvalues, front ++ back, by simp [hfront, hback], fun label i => ?_⟩
    exact (hwrites (label i)).bind (hrest label (i + 1))

theorem decodeEntries_parses {inner : ScalarType}
    (h : ∀ path, Parses (decode inner path) fun v code =>
      R inner v ∧ Rewrites (encode inner v) code)
    (path : Message) (count : ℕ) (previous : Option String) (acc : Fields)
    (hacc : KeysSorted acc) (hprev : ∀ p ∈ acc, ∃ k ∈ previous, p.1 ≤ k) :
    Parses (decodeEntries decode path inner count previous acc) fun out code =>
      KeysSorted out ∧ ∃ entries, out = acc ++ entries ∧ entries.length = count ∧
        (∀ e ∈ entries, (utf8 e.1).length ≤ MAX_MAP_KEY_BYTES ∧ R inner e.2) ∧
        ∃ code', code'.length = code.length ∧ ∀ path,
          Writes MAX_VALUE_BYTES (encodeEntries encode path inner entries) code' := by
  induction count generalizing previous acc with
  | zero => exact .pure ⟨hacc, [], (append_nil acc).symm, rfl, by simp, [], rfl, fun _ => .pure _⟩
  | succ count ih =>
    refine parses_getLength.bind ?_
    rintro len code ⟨hfour, hsmall⟩
    refine Parses.guard fun hlen => parses_take fun bytes hbytes => ?_
    split
    · exact .throw _
    · rename_i key hkey
      obtain rfl := utf8_of_fromUtf8 hkey
      refine Parses.guard fun hordered => (h _).bind ?_
      rintro v code' ⟨hv, mid, hmid, hwrites⟩
      have hlast : ∀ p ∈ acc, p.1 < key := by
        intro p hp
        obtain ⟨k, hk, hle⟩ := hprev p hp
        obtain rfl : previous = some k := hk
        exact hle.trans_lt (by simpa using hordered)
      refine (ih (some key) _ (keysSorted_assocInsert key v hacc) fun p hp => ?_).mono ?_
      · obtain rfl | hp := mem_assocInsert hp
        · exact ⟨key, rfl, le_rfl⟩
        · exact ⟨key, rfl, (hlast p hp).le⟩
      · rintro out code'' ⟨hsorted, entries, rfl, rfl, hentries, back, hback, hrest⟩
        refine ⟨hsorted, (key, v) :: entries, ?_, rfl, ?_, beBytes 4 (utf8 key).length ++
          (utf8 key ++ (mid ++ back)), ?_, fun path' => ?_⟩
        · rw [assocInsert_of_last hlast, append_assoc, singleton_append]
        · exact forall_mem_cons.mpr ⟨⟨show (utf8 key).length ≤ _ by omega, hv⟩, hentries⟩
        · simp only [length_append, length_beBytes, hfour, hmid, hback]
        · rw [encodeEntries, if_neg (by omega)]
          exact (writes_putLen (by omega) path').bind
            ((writes_putBytes _).bind ((hwrites _).bind (hrest path')))

/-- One field as it was read: its column, its value, and the bytes that write it. -/
abbrev ReadField := Column × Value × List UInt8

/-- The record that some fields make up. -/
def insertFields (read : List ReadField) (acc : Fields) : Fields :=
  read.foldl (fun acc f => assocInsert f.1.name f.2.1 acc) acc

variable {acc : Fields} {read : List ReadField} {columns : List Column}

theorem insertFields_sorted (read : List ReadField) (h : KeysSorted acc) :
    KeysSorted (insertFields read acc) := by
  induction read generalizing acc with
  | nil => exact h
  | cons f read ih => exact ih (keysSorted_assocInsert _ _ h)

theorem mem_insertFields {p : String × Value}
    (h : p ∈ insertFields read acc) : p ∈ acc ∨ ∃ f ∈ read, p = (f.1.name, f.2.1) := by
  induction read generalizing acc with
  | nil => exact .inl h
  | cons f read ih =>
    obtain hp | ⟨g, hg, hp⟩ := ih h
    · obtain rfl | hp := mem_assocInsert hp
      · exact .inr ⟨f, mem_cons_self .., rfl⟩
      · exact .inl hp
    · exact .inr ⟨g, mem_cons_of_mem _ hg, hp⟩

theorem lookup_insertFields_of_ne {name : String} (h : ∀ f ∈ read, f.1.name ≠ name) :
    (insertFields read acc).lookup name = acc.lookup name := by
  induction read generalizing acc with
  | nil => rfl
  | cons f read ih =>
    obtain ⟨hf, h⟩ := forall_mem_cons.mp h
    rw [insertFields, foldl_cons]
    exact (ih h).trans (by rw [lookup_assocInsert, if_neg (Ne.symm hf)])

theorem lookup_insertFields {f : ReadField}
    (hnames : (read.map fun f => f.1.name).Nodup) (hf : f ∈ read) :
    (insertFields read acc).lookup f.1.name = some f.2.1 := by
  induction read generalizing acc with
  | nil => cases hf
  | cons g read ih =>
    obtain ⟨hg, hnames⟩ := nodup_cons.mp hnames
    obtain rfl | hf := mem_cons.mp hf
    · rw [insertFields, foldl_cons]
      refine (lookup_insertFields_of_ne fun g hmem heq => hg (mem_map.mpr ⟨g, hmem, heq⟩)).trans ?_
      rw [lookup_assocInsert, if_pos rfl]
    · exact ih hnames hf

theorem decodeColumns_parses (h : ∀ c ∈ columns, ∀ path, Parses (decode c.ty path) fun v code =>
      R c.ty v ∧ Rewrites (encode c.ty v) code)
    (path : Message) (count : ℕ) (seen : List UInt64) (acc : Fields) :
    Parses (decodeColumns decode path columns count seen acc) fun out code =>
      ∃ read : List ReadField, read.length = count ∧ out = insertFields read acc ∧
        (read.map fun f => f.1.id).Nodup ∧ (∀ f ∈ read, f.1.id ∉ seen ∧ f.1 ∈ columns ∧
          R f.1.ty f.2.1 ∧ ∀ path, Writes MAX_VALUE_BYTES (encode f.1.ty f.2.1 path) f.2.2) ∧
        code.length = (read.map fun f => 8 + f.2.2.length).sum := by
  induction count generalizing seen acc with
  | zero => exact .pure ⟨[], rfl, rfl, .nil, by simp, rfl⟩
  | succ count ih =>
    refine parses_getU64.bind fun fieldId code hcode => Parses.guard fun hfresh => ?_
    split
    · exact .throw _
    · rename_i c hc
      obtain rfl : c.id = fieldId := by simpa using find?_some hc
      have hmem := mem_of_find?_eq_some hc
      refine (h c hmem _).bind ?_
      rintro v code' ⟨hv, front, hfront, hwrites⟩
      refine (ih (c.id :: seen) _).mono ?_
      rintro out code'' ⟨read, rfl, rfl, hnodup, hread, hlen⟩
      refine ⟨(c, v, front) :: read, rfl, rfl, nodup_cons.mpr ⟨?_, hnodup⟩,
        forall_mem_cons.mpr ⟨⟨hfresh, hmem, hv, hwrites⟩, fun f hf => ?_⟩, ?_⟩
      · rintro hin
        obtain ⟨f, hf, heq⟩ := mem_map.mp hin
        exact (hread f hf).1 (heq ▸ mem_cons_self ..)
      · exact ⟨fun hin => (hread f hf).1 (mem_cons_of_mem _ hin), (hread f hf).2⟩
      · simp only [length_append, map_cons, sum_cons, hcode, hfront, hlen]
        omega

/-- As many distinct fields as there are columns are all of them. -/
theorem read_perm (hlen : read.length = columns.length) (hids : (read.map fun f => f.1.id).Nodup)
    (hmem : ∀ f ∈ read, f.1 ∈ columns) : (read.map fun f => f.1).Perm columns := by
  have hnodup : (read.map fun f => f.1).Nodup := by
    refine List.Nodup.of_map (fun c : Column => c.id) ?_
    rwa [map_map]
  refine (subperm_of_subset hnodup ?_).perm_of_length_le (by simp [hlen])
  intro c hc
  obtain ⟨f, hf, rfl⟩ := mem_map.mp hc
  exact hmem f hf

/-- The fields in the order of their identities. -/
def readById (read : List ReadField) : List ReadField :=
  read.insertionSort fun a b => a.1.id ≤ b.1.id

theorem map_readById
    (hids : (columns.map fun c => c.id).Nodup) (hperm : (read.map fun f => f.1).Perm columns) :
    (readById read).map (fun f => f.1) = columnsById columns := by
  have hsorted := pairwise_insertionSort (fun a b : ReadField => a.1.id ≤ b.1.id) read
  have hsorted' := pairwise_insertionSort (fun a b : Column => a.id ≤ b.id) columns
  refine List.Perm.eq_of_pairwise ?_
    (pairwise_map.mpr hsorted) hsorted'
    (((perm_insertionSort _ read).map _).trans
      (hperm.trans (perm_insertionSort _ columns).symm))
  intro a b ha hb hab hba
  have ha : a ∈ columns := hperm.mem_iff.mp (((perm_insertionSort _ read).map _).mem_iff.mp ha)
  have hb : b ∈ columns := (perm_insertionSort _ columns).mem_iff.mp hb
  exact inj_on_of_nodup_map hids ha hb (UInt64.le_antisymm hab hba)

/-- Fields are written as they were read, in another order. -/
theorem encodeColumns_writes {fields : Fields}
    (hlook : ∀ f ∈ read, fields.lookup f.1.name = some f.2.1)
    (hwrites : ∀ f ∈ read, ∀ path, Writes MAX_VALUE_BYTES (encode f.1.ty f.2.1 path) f.2.2)
    (path : Message) :
    Writes MAX_VALUE_BYTES (encodeColumns encode path fields (read.map fun f => f.1))
      (read.flatMap fun f => beBytes 8 f.1.id.toNat ++ f.2.2) := by
  induction read with
  | nil => exact .pure _
  | cons f read ih =>
    obtain ⟨hf, hlook⟩ := forall_mem_cons.mp hlook
    obtain ⟨hw, hwrites⟩ := forall_mem_cons.mp hwrites
    have hfield : Writes MAX_VALUE_BYTES (encodeField encode path fields f.1) f.2.2 := by
      simp only [encodeField, hf]
      exact hw _
    rw [flatMap_cons, append_assoc]
    exact (writes_putBytes _).bind (hfield.bind (ih hlook hwrites))

end Loops

/-! ## Values -/

section Values
variable {catalog : Catalog} {version : UInt16} {n : ℕ} {ty : ScalarType}

/-- What the decoder says about a value that it accepts. -/
def Accepted (catalog : Catalog) (version : UInt16) (n : ℕ) (ty : ScalarType) (v : Value)
    (code : List UInt8) : Prop :=
  catalog.HasType n ty v ∧ Rewrites (encodeInner catalog version n ty v) code

theorem accepted_word {v : Value} {code : List UInt8} (word : List UInt8)
    (hty : catalog.HasType n ty v) (hlen : word.length = code.length)
    (hencode : ∀ path, encodeInner catalog version n ty v path = putBytes word) :
    Accepted catalog version n ty v code :=
  ⟨hty, word, hlen, fun path => hencode path ▸ writes_putBytes word⟩

theorem accepted_framed {v : Value} {frame bytes : List UInt8} (hty : catalog.HasType n ty v)
    (hframe : frame.length = 4) (hlen : bytes.length < 2 ^ 32)
    (hencode : ∀ path, encodeInner catalog version n ty v path = (do
      putLen bytes.length path
      putBytes bytes)) :
    Accepted catalog version n ty v (frame ++ bytes) :=
  ⟨hty, beBytes 4 bytes.length ++ bytes, by simp [hframe], fun path =>
    hencode path ▸ (writes_putLen hlen path).bind (writes_putBytes bytes)⟩

/-- **An accepted value is typed and can be written again.** -/
theorem decodeInner_parses (hc : catalog.Everywhere ScalarType.UniqueFieldNames)
    (hids : catalog.Everywhere ScalarType.UniqueIds)
    (hty : ty.Everywhere ScalarType.UniqueFieldNames) (htyIds : ty.Everywhere ScalarType.UniqueIds)
    (path : Message) :
    Parses (decodeInner catalog version n ty path) (Accepted catalog version n ty) := by
  induction n generalizing ty path with
  | zero => exact .throw _
  | succ n ih =>
    cases ty with
    | int =>
      exact parses_take fun bytes h => .pure (accepted_word _ ⟨_, rfl⟩ (by simp [h]) fun _ => rfl)
    | float =>
      refine parses_take fun bytes h => Parses.guard fun hfinite => .pure ?_
      rw [Bool.not_eq_true, Bool.not_eq_false'] at hfinite
      have hfinite := Float64.isFinite_normalizeZero hfinite
      refine accepted_word
        (beBytes 8 (Float64.normalizeZero (UInt64.ofNat (beNat bytes))).toNat)
        ⟨_, rfl, hfinite, Float64.normalizeZero_idem _⟩ (by simp [h]) fun path => ?_
      simp only [encodeInner, hfinite, if_true, Float64.normalizeZero_idem]
    | bool =>
      refine parses_getU8.bind fun tag code hcode => ?_
      split
      · exact .pure (accepted_word _ ⟨_, rfl⟩ (by simp [hcode]) fun _ => rfl)
      · split
        · exact .pure (accepted_word _ ⟨_, rfl⟩ (by simp [hcode]) fun _ => rfl)
        · exact .throw _
    | text =>
      refine parses_getLength.bind ?_
      rintro len code ⟨hfour, hlen⟩
      refine parses_take fun bytes hbytes => ?_
      split
      · exact .throw _
      · rename_i s hs
        obtain rfl := utf8_of_fromUtf8 hs
        refine .pure ?_
        rw [append_nil]
        exact accepted_framed ⟨_, rfl⟩ hfour (by omega) fun _ => rfl
    | uuid =>
      refine parses_take fun bytes h => ?_
      rw [dif_pos h]
      exact .pure (accepted_word _ ⟨_, rfl⟩ (by simp) fun _ => rfl)
    | date =>
      exact parses_take fun bytes h => parses_liftScalar fun d _ =>
        .pure (accepted_word _ ⟨d, rfl⟩ (by simp [h]) fun _ => rfl)
    | timestamp =>
      exact parses_take fun bytes h => parses_liftScalar fun t _ =>
        .pure (accepted_word _ ⟨t, rfl⟩ (by simp [h]) fun _ => rfl)
    | duration =>
      exact parses_take fun bytes h => .pure (accepted_word _ ⟨_, rfl⟩ (by simp [h]) fun _ => rfl)
    | decimal precision scale =>
      exact parses_take fun bytes h => parses_liftScalar fun d hd =>
        .pure (accepted_word _ ⟨d, rfl, Decimal.rescale_of_new hd⟩ (by simp [h]) fun _ => rfl)
    | bytes =>
      refine parses_getLength.bind ?_
      rintro len code ⟨hfour, hlen⟩
      refine parses_take fun bytes hbytes => parses_liftScalar fun b hb => .pure ?_
      obtain rfl := Bytes.new_eq_ok.mp hb
      rw [append_nil]
      exact accepted_framed ⟨_, rfl⟩ hfour (by omega) fun _ => rfl
    | enum variants =>
      refine parses_getU64.bind fun variantId code hcode => ?_
      split
      · exact .throw _
      · rename_i variant hfind
        obtain rfl : variant.id = variantId := by simpa using find?_some hfind
        have hmem := mem_of_find?_eq_some hfind
        refine parses_getLength.bind ?_
        rintro count frame ⟨hfour, hlen⟩
        refine Parses.guard fun hcount => ?_
        obtain rfl : count = variant.args.length := not_not.mp hcount
        refine (decodeItems_parses (fun ty hmemTy => ih (hty.arg hmem hmemTy)
          (htyIds.arg hmem hmemTy)) _ 0).map ?_
        rintro args payload ⟨hargs, code', hcode', hwrites⟩
        refine ⟨⟨variant, hmem, args, rfl, hargs⟩, beBytes 8 variant.id.toNat ++
          (beBytes 4 args.length ++ code'), by simp [hcode, hfour, hcode'], fun path' => ?_⟩
        simp only [encodeInner, encodeEnum, hfind, hargs.length_eq, ne_eq,
          not_true_eq_false, if_false]
        exact (writes_putBytes _).bind ((writes_putLen (hargs.length_eq ▸ hlen) path').bind
          (hwrites _ 0))
    | record columns =>
      refine parses_getLength.bind ?_
      rintro count frame ⟨hfour, hlen⟩
      refine Parses.guard fun hcount => ?_
      obtain rfl : count = columns.length := not_not.mp hcount
      refine (decodeColumns_parses (fun c hmem => ih (hty.field hmem) (htyIds.field hmem))
        path _ [] []).map ?_
      rintro fields payload ⟨read, hread, rfl, hnodup, hall, hpayload⟩
      have hperm := read_perm hread hnodup fun f hf => (hall f hf).2.1
      have hnames : (read.map fun f => f.1.name).Nodup := by
        have := (hperm.map fun c : Column => c.name).nodup_iff.mpr hty.here
        rwa [map_map] at this
      have hlook : ∀ f ∈ read, (insertFields read []).lookup f.1.name = some f.2.1 := fun f hf =>
        lookup_insertFields hnames hf
      have hsort : (readById read).Perm read := perm_insertionSort _ read
      refine ⟨⟨_, rfl, insertFields_sorted read keysSorted_nil, fun p hp => ?_, fun c hc => ?_⟩,
        beBytes 4 columns.length ++ (readById read).flatMap fun f =>
          beBytes 8 f.1.id.toNat ++ f.2.2,
        ?_, fun path' => ?_⟩
      · obtain hp | ⟨f, hf, rfl⟩ := mem_insertFields hp
        · cases hp
        · exact ⟨f.1, (hall f hf).2.1, rfl⟩
      · obtain ⟨f, hf, rfl⟩ := mem_map.mp (hperm.mem_iff.mpr hc)
        exact ⟨f.2.1, hlook f hf, (hall f hf).2.2.1⟩
      · rw [length_append, length_append, length_beBytes, hfour, hpayload,
          length_flatMap, (hsort.map _).sum_eq]
        simp
      · refine (writes_putLen hlen path').bind ?_
        rw [← map_readById htyIds.here hperm]
        exact encodeColumns_writes (fun f hf => hlook f (hsort.mem_iff.mp hf))
          (fun f hf => (hall f (hsort.mem_iff.mp hf)).2.2.2) path'
    | tuple types =>
      refine parses_getLength.bind ?_
      rintro count frame ⟨hfour, hlen⟩
      refine Parses.guard fun hcount => ?_
      obtain rfl : count = types.length := not_not.mp hcount
      refine (decodeItems_parses (fun ty hmem => ih (hty.item hmem) (htyIds.item hmem)) _ 0).map ?_
      rintro items payload ⟨hitems, code, hcode, hwrites⟩
      refine ⟨⟨items, rfl, hitems⟩, beBytes 4 types.length ++ code, by simp [hfour, hcode],
        fun path' => ?_⟩
      simp only [encodeInner, hitems.length_eq, ne_eq, not_true_eq_false, if_false]
      exact (writes_putLen (hitems.length_eq ▸ hlen) path').bind (hwrites _ 0)
    | option item =>
      refine parses_getU8.bind fun tag code hcode => ?_
      split
      · exact .pure (accepted_word _ (.inl rfl) (by simp [hcode]) fun _ => rfl)
      · split
        · refine (ih hty.option htyIds.option path).map ?_
          rintro v payload ⟨hv, code', hcode', hwrites⟩
          exact ⟨.inr ⟨v, rfl, hv⟩, [1] ++ code', by simp [hcode, hcode', Nat.add_comm],
            fun path' =>
            (writes_putBytes [1]).bind (hwrites path')⟩
        · exact .throw _
    | list item =>
      refine parses_getLength.bind ?_
      rintro count frame ⟨hfour, hlen⟩
      refine Parses.guard fun hcount => Parses.requireBytes ?_
      refine (decodeItems_parses (fun ty hmem => by
        obtain rfl := eq_of_mem_replicate hmem
        exact ih hty.list htyIds.list) _ 0).map ?_
      rintro items payload ⟨hitems, code, hcode, hwrites⟩
      obtain rfl : count = items.length := by simpa using hitems.length_eq
      refine ⟨⟨items, rfl, fun v hv => ?_⟩, beBytes 4 items.length ++ code, by simp [hfour, hcode],
        fun path' => ?_⟩
      · obtain ⟨ty, hmem, hv⟩ := typed_of_mem hitems hv
        obtain rfl := eq_of_mem_replicate hmem
        exact hv
      · simp only [encodeInner, if_neg hcount]
        exact (writes_putLen hlen path').bind (hwrites _ 0)
    | map item =>
      refine Parses.guard fun hversion => parses_getLength.bind ?_
      rintro count frame ⟨hfour, hlen⟩
      refine Parses.guard fun hcount => ?_
      refine (decodeEntries_parses (ih hty.map htyIds.map) path count none [] keysSorted_nil
        (by simp)).map ?_
      rintro out payload ⟨hsorted, entries, hout, rfl, hentries, code, hcode, hwrites⟩
      obtain rfl : out = entries := hout
      refine ⟨⟨out, rfl, hsorted, not_lt.mp hcount, hentries⟩, beBytes 4 out.length ++ code,
        by simp [hfour, hcode], fun path' => ?_⟩
      simp only [encodeInner, if_neg hversion, if_neg hcount]
      exact (writes_putLen hlen path').bind (hwrites path')
    | named name => exact .throw _
    | ref id =>
      refine parses_getU64.bind fun actual code hcode => Parses.guard fun hactual => ?_
      obtain rfl : actual = id := not_not.mp hactual
      cases hdef : catalog.definition actual with
      | error e => exact .throw e
      | ok definition =>
        refine (ih (hc _ _ hdef) (hids _ _ hdef) path).map ?_
        rintro v payload ⟨hv, code', hcode', hwrites⟩
        refine ⟨⟨v, definition, rfl, hdef, hv⟩, beBytes 8 actual.toNat ++ code',
          by simp [hcode, hcode'], fun path' => ?_⟩
        simp only [encodeInner, ne_eq, not_true_eq_false, if_false, hdef]
        exact (writes_putBytes _).bind (hwrites path')

end Values

/-! ## Framed values -/

section Frame
variable {catalog : Catalog} {ty : ScalarType} {v : Value} {bytes body : List UInt8}
  {version : UInt16}

/-- What is known once the frame has been read. -/
theorem decodeHeader_eq_ok (h : decodeHeader catalog ty bytes = .ok (version, body)) :
    IsVersion version ∧ bytes.length = MAGIC.length + 2 + body.length ∧
      ∃ required, requiresProtocolV2 catalog ty = .ok required ∧
        ¬(required = true ∧ version < PRODUCTION_VALUE_CODEC_VERSION) := by
  have hparses : Parses (decodeHeader catalog ty) fun version code => IsVersion version ∧
      code.length = MAGIC.length + 2 ∧ ∃ required, requiresProtocolV2 catalog ty = .ok required ∧
        ¬(required = true ∧ version < PRODUCTION_VALUE_CODEC_VERSION) := by
    refine parses_take fun magic hmagic => Parses.guard fun _ => parses_getU16.bind ?_
    intro version code hcode
    refine Parses.guard fun hknown => ?_
    cases hrequired : requiresProtocolV2 catalog ty with
    | error e => exact .throw e
    | ok required =>
      refine Parses.guard fun hcovers => .pure ⟨?_, by simp [hmagic, hcode], required, rfl, hcovers⟩
      by_contra hversion
      simp only [IsVersion, not_or] at hversion
      exact hknown hversion
  obtain ⟨code, rfl, hversion, hlen, hrequired⟩ := hparses _ _ _ h
  exact ⟨hversion, by rw [length_append, hlen], hrequired⟩

/-- An accepted value: the frame, the bytes behind it, and what reading them has shown. -/
theorem decodeValue_eq_ok (hc : catalog.Everywhere ScalarType.UniqueFieldNames)
    (hids : catalog.Everywhere ScalarType.UniqueIds)
    (hty : ty.Everywhere ScalarType.UniqueFieldNames) (htyIds : ty.Everywhere ScalarType.UniqueIds)
    (h : decodeValue catalog ty bytes = .ok v) :
    ∃ version body, bytes.length ≤ MAX_VALUE_BYTES ∧
      decodeHeader catalog ty bytes = .ok (version, body) ∧
      decodeInner catalog version MAX_DEPTH ty "value" body = .ok (v, []) ∧
      Accepted catalog version MAX_DEPTH ty v body := by
  unfold decodeValue at h
  obtain ⟨hsize, h⟩ := of_refused h
  obtain ⟨⟨w, rest⟩, hrun, h⟩ := of_bind h
  obtain ⟨version, body, hheader, hbody⟩ := stateT_bind_eq_ok.mp hrun
  dsimp only at h
  obtain ⟨hrest, h⟩ := of_refused h
  obtain rfl : rest = [] := not_not.mp hrest
  cases h
  obtain ⟨code, rfl, haccepted⟩ := decodeInner_parses hc hids hty htyIds "value" _ _ _ hbody
  rw [append_nil] at hheader hbody
  exact ⟨version, code, Nat.not_lt.mp hsize, hheader, hbody, haccepted⟩

theorem decodeValue_hasType (hc : catalog.WellFormed)
    (hids : catalog.Everywhere ScalarType.UniqueIds) (hty : ty.Bound)
    (h : decodeValue catalog ty bytes = .ok v) : catalog.HasType MAX_DEPTH ty v := by
  obtain ⟨_, _, -, -, -, haccepted⟩ :=
    decodeValue_eq_ok hc.uniqueFieldNames hids hty.wellFormed.uniqueFieldNames hty.uniqueIds h
  exact haccepted.1

/-- **Accepted bytes hold a well-typed value.** All of them are read, the value is its
own coercion, and it can be encoded again, with the version it was read with, and read
back. -/
theorem decodeValue_sound (hcatalog : catalog.Produced)
    (hplain : catalog.Everywhere ScalarType.PlainVariants) (hbound : ty.Bound)
    (hp : ty.Everywhere ScalarType.PlainVariants) (h : decodeValue catalog ty bytes = .ok v) :
    ∃ version body, decodeHeader catalog ty bytes = .ok (version, body) ∧
      decodeInner catalog version MAX_DEPTH ty "value" body = .ok (v, []) ∧
      catalog.WellTyped ty v ∧ ∃ bytes', encodeValueVersion catalog ty v version = .ok bytes' ∧
        decodeValue catalog ty bytes' = .ok v := by
  obtain ⟨hty, htyIds⟩ := hbound
  have hc := hcatalog.sound.wellFormed
  have hids := hcatalog.sound.uniqueIds
  obtain ⟨version, body, hsize, hheader, hbody, hv, code', hcode', hwrites⟩ :=
    decodeValue_eq_ok hc.uniqueFieldNames hids hty.uniqueFieldNames htyIds h
  obtain ⟨hversion, hlen, required, hrequired, hcovers⟩ := decodeHeader_eq_ok hheader
  have hwell : catalog.WellTyped ty v := (wellTyped_iff hc hplain hty hp).mpr hv
  have hencode : encodeValueVersion catalog ty v version =
      .ok (MAGIC ++ (beBytes 2 version.toNat ++ code')) := by
    have hall := ((writes_putBytes MAGIC).bind ((writes_putBytes (beBytes 2 version.toNat)).bind
      (hwrites "value"))) [] (by
        simp only [length_append, length_beBytes, length_nil, hcode'] at hlen ⊢
        omega)
    rw [encodeValueVersion, hrequired, ok_bind, if_neg hcovers]
    change (catalog.coerce v ty "value" >>= _) = _
    rw [show catalog.coerce v ty "value" = .ok v from hwell, ok_bind]
    exact congrArg (fun r => r >>= _) hall
  exact ⟨version, body, hheader, hbody, hwell, _, hencode,
    decodeValue_of_encode hids htyIds hversion hwell hv hencode⟩

/-- Bytes of `run (some 7)` for the type with identity 3, whose second variant is `run`. -/
def runBytes : List UInt8 :=
  MAGIC ++ [0, 1] ++ beBytes 8 3 ++ beBytes 8 2 ++ beBytes 4 1 ++ [1] ++ beBytes 8 7

theorem decodeValue_sound_run :
    ∃ catalog v version body,
      Catalog.empty.define "job" (.enum [⟨"idle", [], 0⟩, ⟨"run", [.option .int], 0⟩]) =
        .ok catalog ∧
      decodeHeader catalog (.ref 3) runBytes = .ok (version, body) ∧
      decodeInner catalog version MAX_DEPTH (.ref 3) "value" body = .ok (v, []) ∧
      catalog.WellTyped (.ref 3) v ∧
      ∃ bytes', encodeValueVersion catalog (.ref 3) v version = .ok bytes' ∧
        decodeValue catalog (.ref 3) bytes' = .ok v := by
  obtain ⟨catalog, v, hdefine, hvalues, hdecode⟩ : ∃ catalog v,
      Catalog.empty.define "job" (.enum [⟨"idle", [], 0⟩, ⟨"run", [.option .int], 0⟩]) =
        .ok catalog ∧
      valuesOf catalog.types = [⟨3, "job", .enum [⟨"idle", [], 1⟩, ⟨"run", [.option .int], 2⟩]⟩] ∧
      decodeValue catalog (.ref 3) runBytes = .ok v :=
    ⟨_, .named 3 (.enum "run" [.option (some (.int 7))] 2), rfl, rfl, rfl⟩
  have hplain : catalog.Everywhere ScalarType.PlainVariants := fun id d hd => by
    have hmem := mem_valuesOf.mpr (definition_mem hd).2
    rw [hvalues, mem_singleton] at hmem
    rw [hmem]
    refine .node (by rw [ScalarType.PlainVariants]; decide +kernel) fun part hpart => ?_
    obtain rfl : part = .option .int := by simpa [ScalarType.parts] using hpart
    refine .node trivial fun part hpart => ?_
    obtain rfl := mem_singleton.mp hpart
    exact .leaf trivial rfl
  obtain ⟨version, body, hrest⟩ := decodeValue_sound (.define .empty hdefine) hplain
    (bound_leaf (.ref 3) trivial rfl) (.leaf trivial rfl) hdecode
  exact ⟨catalog, v, version, body, hdefine, hrest⟩

/-- A variant name with a dot is accepted by the catalog and by the decoder, but
coercion takes what stands before the dot for the name of a type. -/
theorem decodeValue_accepts_qualified_variant :
    ∃ catalog ty bytes v e, Catalog.empty.resolve MAX_DEPTH (.enum [⟨"a.b", [], 0⟩]) =
        .ok (ty, catalog) ∧
      decodeValue catalog ty bytes = .ok v ∧ catalog.coerce v ty "value" = .error e :=
  ⟨{ Catalog.empty with nextId := 2 }, .enum [⟨"a.b", [], 1⟩],
    MAGIC ++ [0, 1] ++ beBytes 8 1 ++ beBytes 4 0, .enum "a.b" [] 1, _, rfl, rfl, rfl⟩

end Frame
end UnionId.Codec
