import UnionId.OrderedKey

/-!
# Index keys preserve the typed order

Each code is decided against every other code of its type, and the decision is
the typed comparison. The argument goes over the remaining depth; products,
records, lists and maps contribute one rule each about their loops.
-/
namespace UnionId.OrderedKey

open Lib Catalog List

/-- Whenever both codes exist, the comparison exists and decides them. -/
def Agrees {α : Type} (encode : α → Result (List UInt8)) (cmp : α → α → Result Ordering) : Prop :=
  ∀ l r bl br, encode l = .ok bl → encode r = .ok br →
    ∃ o, cmp l r = .ok o ∧ codeCompare bl br = some o

/-! ## Loops -/

section Loops
variable {α τ : Type} {bl br : List UInt8}

/-- A product is decided by its first differing component. -/
theorem cmpProduct_of_agrees {encode : τ → Value → Result (List UInt8)}
    {cmp : τ → Value → Value → Result Ordering} (h : ∀ ty, Agrees (encode ty) (cmp ty))
    {types : List τ} {l r : List Value}
    (hl : l.length = types.length) (hr : r.length = types.length)
    (el : encodeProduct encode types l = .ok bl) (er : encodeProduct encode types r = .ok br) :
    ∃ o, cmpProduct cmp types l r = .ok o ∧ codeCompare bl br = some o := by
  induction types generalizing l r bl br with
  | nil =>
    obtain rfl : [] = bl := by simpa [encodeProduct] using el
    obtain rfl : [] = br := by simpa [encodeProduct] using er
    exact ⟨.eq, by simp [cmpProduct], rfl⟩
  | cons ty types ih =>
    obtain ⟨v, l, rfl⟩ := exists_of_length_succ l hl
    obtain ⟨w, r, rfl⟩ := exists_of_length_succ r hr
    simp only [encodeProduct, bind_eq_ok, pure_eq_ok, Except.ok.injEq] at el er
    obtain ⟨bv, hv, bl', hbl, rfl⟩ := el
    obtain ⟨bw, hw, br', hbr, rfl⟩ := er
    obtain ⟨o, ho, hdec⟩ := h ty _ _ _ _ hv hw
    obtain ⟨p, hp, hrest⟩ := ih (by simpa using hl) (by simpa using hr) hbl hbr
    refine ⟨o.then p, ?_, codeCompare_append hdec fun _ => hrest⟩
    cases o <;> simp [cmpProduct, ho, hp]

/-- A record is decided by its first differing column. -/
theorem cmpColumns_of_agrees {encode : ScalarType → Value → Result (List UInt8)}
    {cmp : ScalarType → Value → Value → Result Ordering} (h : ∀ ty, Agrees (encode ty) (cmp ty))
    {columns : List Column} {l r : List (String × Value)}
    {m m' m'' : Error} (el : encodeColumns encode m l columns = .ok bl)
    (er : encodeColumns encode m' r columns = .ok br) :
    ∃ o, cmpColumns cmp m'' l r columns = .ok o ∧ codeCompare bl br = some o := by
  induction columns generalizing bl br with
  | nil =>
    obtain rfl : [] = bl := by simpa [encodeColumns] using el
    obtain rfl : [] = br := by simpa [encodeColumns] using er
    exact ⟨.eq, rfl, rfl⟩
  | cons column columns ih =>
    simp only [encodeColumns] at el er
    cases hl : l.lookup column.name with
    | none => simp [hl] at el
    | some v =>
      cases hr : r.lookup column.name with
      | none => simp [hr] at er
      | some w =>
        simp only [hl, bind_eq_ok, pure_eq_ok, Except.ok.injEq] at el
        simp only [hr, bind_eq_ok, pure_eq_ok, Except.ok.injEq] at er
        obtain ⟨bv, hv, bl', hbl, rfl⟩ := el
        obtain ⟨bw, hw, br', hbr, rfl⟩ := er
        obtain ⟨o, ho, hdec⟩ := h column.ty _ _ _ _ hv hw
        obtain ⟨p, hp, hrest⟩ := ih hbl hbr
        refine ⟨o.then p, ?_, codeCompare_append hdec fun _ => hrest⟩
        cases o <;> simp [cmpColumns, hl, hr, ho, hp]

/-- A sequence is decided by its first differing element, or by its end marker. -/
theorem cmpZip_of_agrees {encode : α → Result (List UInt8)} {cmp : α → α → Result Ordering}
    (h : Agrees encode cmp) {l r : List α}
    (el : encodeSequence encode l = .ok bl) (er : encodeSequence encode r = .ok br) :
    ∃ o, cmpZip cmp l r = .ok o ∧ codeCompare bl br =
      some (o.then (compare l.length r.length)) := by
  induction l generalizing r bl br with
  | nil =>
    obtain rfl : [0] = bl := by simpa [encodeSequence] using el
    cases r with
    | nil =>
      obtain rfl : [0] = br := by simpa [encodeSequence] using er
      exact ⟨.eq, rfl, rfl⟩
    | cons w r =>
      simp only [encodeSequence, bind_eq_ok, pure_eq_ok, Except.ok.injEq] at er
      obtain ⟨bw, -, br', -, rfl⟩ := er
      refine ⟨.eq, rfl, ?_⟩
      have hlen : compare ([] : List α).length (w :: r).length = .lt := by
        simp [compare_lt_iff_lt]
      rw [hlen]
      rfl
  | cons v l ih =>
    simp only [encodeSequence, bind_eq_ok, pure_eq_ok, Except.ok.injEq] at el
    obtain ⟨bv, hv, bl', hbl, rfl⟩ := el
    cases r with
    | nil =>
      obtain rfl : [0] = br := by simpa [encodeSequence] using er
      refine ⟨.eq, rfl, ?_⟩
      have hlen : compare (v :: l).length ([] : List α).length = .gt := by
        simp [compare_gt_iff_gt]
      rw [hlen]
      rfl
    | cons w r =>
      simp only [encodeSequence, bind_eq_ok, pure_eq_ok, Except.ok.injEq] at er
      obtain ⟨bw, hw, br', hbr, rfl⟩ := er
      obtain ⟨o, ho, hdec⟩ := h _ _ _ _ hv hw
      obtain ⟨p, hp, hrest⟩ := ih hbl hbr
      have hlen : compare (v :: l).length (w :: r).length = compare l.length r.length := by
        simp [compare, compareOfLessAndEq]
      refine ⟨o.then p, ?_, ?_⟩
      · cases o <;> simp [cmpZip, ho, hp]
      · rw [hlen, Ordering.then_assoc]
        simpa using codeCompare_append hdec fun _ => hrest

end Loops

/-! ## Scalar codes -/

private theorem toInt64_range (v : Int64) : -2 ^ 63 ≤ v.toInt ∧ v.toInt < 2 ^ 63 :=
  ⟨v.le_toInt, v.toInt_lt⟩

private theorem toInt32_range (v : Int32) : -2 ^ 31 ≤ v.toInt ∧ v.toInt < 2 ^ 31 :=
  ⟨v.le_toInt, v.toInt_lt⟩

theorem compare_int64 (l r : Int64) : compare l r = compare l.toInt r.toInt := by
  change compareOfLessAndEq _ _ = compareOfLessAndEq _ _
  simp only [compareOfLessAndEq, Int64.lt_iff_toInt_lt, Int64.toInt_inj]

theorem compare_int32 (l r : Int32) : compare l r = compare l.toInt r.toInt := by
  change compareOfLessAndEq _ _ = compareOfLessAndEq _ _
  simp only [compareOfLessAndEq, Int32.lt_iff_toInt_lt, Int32.toInt_inj]

theorem compare_uint64 (l r : UInt64) : compare l r = compare l.toNat r.toNat := by
  change compareOfLessAndEq _ _ = compareOfLessAndEq _ _
  simp only [compareOfLessAndEq, UInt64.lt_iff_toNat_lt, UInt64.toNat_inj]

/-- Signed words are decided by the signed order. -/
theorem codeCompare_biased {n : ℕ} {l r : ℤ} (hl : -2 ^ (8 * n + 7) ≤ l ∧ l < 2 ^ (8 * n + 7))
    (hr : -2 ^ (8 * n + 7) ≤ r ∧ r < 2 ^ (8 * n + 7)) :
    codeCompare (beBytes (n + 1) (biased (8 * n + 7) l)) (beBytes (n + 1) (biased (8 * n + 7) r)) =
      some (compare l r) := by
  have hpow : 256 ^ (n + 1) = 2 ^ (8 * n + 7 + 1) := by
    rw [show (256 : ℕ) = 2 ^ 8 by rfl, ← pow_mul]; ring_nf
  rw [codeCompare_beBytes (by rw [hpow]; exact biased_lt ..) (by rw [hpow]; exact biased_lt ..),
    compare_biased hl hr]

theorem codeCompare_uint64 (l r : UInt64) :
    codeCompare (beBytes 8 l.toNat) (beBytes 8 r.toNat) = some (compare l r) := by
  rw [codeCompare_beBytes l.toNat_lt r.toNat_lt, compare_uint64]

/-- Escaped texts are decided by the order of the plain bytes. -/
theorem codeCompare_encodeEscaped (a b : List UInt8) :
    codeCompare (encodeEscaped a) (encodeEscaped b) = some (compare a b) := by
  -- Zero is the least byte, and its escape `00 FF` sorts behind the terminator.
  have hzero : ∀ y : UInt8, y ≠ 0 → compare 0 y = .lt ∧ compare y 0 = .gt := by
    intro y hy
    have hpos : (0 : UInt8) < y := UInt8.pos_iff_ne_zero.mpr hy
    exact ⟨Std.compare_eq_lt.mpr hpos, Std.compare_eq_gt.mpr hpos⟩
  induction a generalizing b with
  | nil =>
    cases b with
    | nil => rfl
    | cons y b =>
      by_cases hy : y = 0
      · simp only [encodeEscaped, hy, if_true]
        rfl
      · simp only [encodeEscaped, hy, if_false]
        rw [codeCompare_cons_of_ne (by simp [(hzero y hy).1]), (hzero y hy).1]
        rfl
  | cons x a ih =>
    cases b with
    | nil =>
      by_cases hx : x = 0
      · simp only [encodeEscaped, hx, if_true]
        rfl
      · simp only [encodeEscaped, hx, if_false]
        rw [codeCompare_cons_of_ne (by simp [(hzero x hx).2]), (hzero x hx).2]
        rfl
    | cons y b =>
      rw [List.compare_cons_cons]
      by_cases hx : x = 0 <;> by_cases hy : y = 0
      · simp only [encodeEscaped, hx, hy, if_true, codeCompare_cons_self, ih]
        simp
      · simp only [encodeEscaped, hx, hy, if_true, if_false]
        rw [codeCompare_cons_of_ne (by simp [(hzero y hy).1]), (hzero y hy).1]
        rfl
      · simp only [encodeEscaped, hx, hy, if_true, if_false]
        rw [codeCompare_cons_of_ne (by simp [(hzero x hx).2]), (hzero x hx).2]
        rfl
      · simp only [encodeEscaped, hx, hy, if_false]
        exact codeCompare_cons fun _ => ih b

/-! ## Values -/

section Values
variable {catalog : Catalog} {version n : ℕ} {v : Value} {b : List UInt8}

/-! What a successful code says about the value. The cases evaluate the encoder on a
constructor, so no equation of it is unfolded. -/

private theorem encode_float (h : encodeValue catalog version (n + 1) .float v = .ok b) :
    ∃ bits, v = .float bits ∧ Float64.isFinite bits = true ∧
      b = beBytes 8 (Float64.ordered (Float64.normalizeZero bits)).toNat := by
  cases v with
  | float bits =>
    obtain ⟨hfin, h⟩ := of_required h
    cases h
    exact ⟨bits, rfl, hfin, rfl⟩
  | _ => cases h

private theorem encode_decimal {p s : ℕ}
    (h : encodeValue catalog version (n + 1) (.decimal p s) v = .ok b) :
    ∃ d, v = .decimal d ∧ d.scale = s ∧ b = beBytes 16 (biased 127 d.coefficient) := by
  cases v with
  | decimal d =>
    obtain ⟨hscale, h⟩ := of_required h
    cases h
    exact ⟨d, rfl, hscale, rfl⟩
  | _ => cases h

private theorem encode_ref {id : UInt64}
    (h : encodeValue catalog version (n + 1) (.ref id) v = .ok b) :
    ∃ w d, v = .named id w ∧ catalog.definition id = .ok d ∧
      encodeValue catalog version n d.ty w = .ok b := by
  cases v with
  | named typeId w =>
    obtain ⟨heq, h⟩ := of_required h
    obtain ⟨d, hd, h⟩ := of_bind h
    exact ⟨w, d, by rw [heq], hd, h⟩
  | _ => cases h

variable {variants : List EnumVariantDef}

private theorem encode_enum (h : encodeValue catalog version (n + 1) (.enum variants) v = .ok b) :
    ∃ name args id m, v = .enum name args id ∧
      encodeEnum (encodeValue catalog version n) m variants id args = .ok b := by
  cases v with
  | enum name args id => exact ⟨name, args, id, _, rfl, h⟩
  | _ => cases h

private theorem encode_record {columns : List Column}
    (h : encodeValue catalog version (n + 1) (.record columns) v = .ok b) :
    ∃ fields m, v = .record fields ∧ fields.length = columns.length ∧
      encodeColumns (encodeValue catalog version n) m fields (columnsById columns) = .ok b := by
  cases v with
  | record fields =>
    obtain ⟨hlen, h⟩ := of_required h
    exact ⟨fields, _, rfl, hlen, h⟩
  | _ => cases h

private theorem encode_tuple {types : List ScalarType}
    (h : encodeValue catalog version (n + 1) (.tuple types) v = .ok b) :
    ∃ items, v = .tuple items ∧ items.length = types.length ∧
      encodeProduct (encodeValue catalog version n) types items = .ok b := by
  cases v with
  | tuple items =>
    obtain ⟨hlen, h⟩ := of_required h
    exact ⟨items, rfl, hlen, h⟩
  | _ => cases h

variable {inner : ScalarType}

private theorem encode_option (h : encodeValue catalog version (n + 1) (.option inner) v = .ok b) :
    (v = .option none ∧ b = [0]) ∨
      ∃ w payload, v = .option (some w) ∧ encodeValue catalog version n inner w = .ok payload ∧
        b = 1 :: payload := by
  cases v with
  | option o =>
    cases o with
    | none => cases h; exact .inl ⟨rfl, rfl⟩
    | some w =>
      obtain ⟨payload, hp, rfl⟩ := of_bind_pure h
      exact .inr ⟨w, payload, rfl, hp, rfl⟩
  | _ => cases h

private theorem encode_list (h : encodeValue catalog version (n + 1) (.list inner) v = .ok b) :
    ∃ items, v = .list items ∧
      encodeSequence (encodeValue catalog version n inner) items = .ok b := by
  cases v with
  | list items => exact ⟨items, rfl, h⟩
  | _ => cases h

private theorem encode_map (h : encodeValue catalog version (n + 1) (.map inner) v = .ok b) :
    ∃ entries, v = .map entries ∧
      encodeSequence (encodeEntry (encodeValue catalog version n inner)) entries = .ok b := by
  obtain ⟨-, h⟩ := of_refused h
  cases v with
  | map entries => exact ⟨entries, rfl, h⟩
  | _ => cases h

/-- Tagged values are decided by their identities, then by their arguments. -/
private theorem cmpEnum_of_agrees {encode : ScalarType → Value → Result (List UInt8)}
    {cmp : ScalarType → Value → Value → Result Ordering} (h : ∀ ty, Agrees (encode ty) (cmp ty))
    {lid rid : UInt64} {largs rargs : List Value}
    {bl br : List UInt8} {m m' m'' : Error} (el : encodeEnum encode m variants lid largs = .ok bl)
    (er : encodeEnum encode m' variants rid rargs = .ok br) :
    ∃ o, cmpEnum cmp m'' variants lid rid largs rargs = .ok o ∧ codeCompare bl br = some o := by
  have key : ∀ {m id args b}, encodeEnum encode m variants id args = .ok b →
      ∃ variant payload, findVariant variants id = some variant ∧
        args.length = variant.args.length ∧
        encodeProduct encode variant.args args = .ok payload ∧
          b = beBytes 8 id.toNat ++ payload := by
    intro m id args b hb
    unfold encodeEnum at hb
    cases hf : findVariant variants id with
    | none => rw [hf] at hb; cases hb
    | some variant =>
      rw [hf] at hb
      dsimp only at hb
      obtain ⟨hlen, hb⟩ := of_refused hb
      obtain ⟨payload, hp, rfl⟩ := of_bind_pure hb
      exact ⟨variant, payload, rfl, not_not.mp hlen, hp, rfl⟩
  obtain ⟨lv, lp, hlf, hll, hle, rfl⟩ := key el
  obtain ⟨rv, rp, hrf, hrl, hre, rfl⟩ := key er
  simp only [cmpEnum, hlf, hrf]
  rw [if_neg (by simp [hll, hrl])]
  by_cases hid : lid = rid
  · subst hid
    obtain rfl : lv = rv := by simpa [hlf] using hrf
    obtain ⟨o, ho, hdec⟩ := cmpProduct_of_agrees h hll hrl hle hre
    refine ⟨o, ?_, ?_⟩
    · simp [cmpTypedItems, hll, hrl, ho]
    · simpa using codeCompare_append (codeCompare_self _) fun _ => hdec
  · have hne : compare lid rid ≠ .eq := fun h => hid (Std.LawfulEqOrd.eq_of_compare h)
    refine ⟨compare lid rid, ?_, ?_⟩
    · cases hc : compare lid rid <;> simp_all
    · have := codeCompare_append (c := lp) (d := rp) (p := .eq) (codeCompare_uint64 lid rid)
        fun h => absurd h hne
      simpa using this

/-- Map entries are decided by their keys, then by their values. -/
private theorem cmpEntry_of_agrees {encode : Value → Result (List UInt8)}
    {cmp : Value → Value → Result Ordering} (h : Agrees encode cmp) :
    Agrees (encodeEntry encode) (cmpEntry cmp) := by
  intro l r bl br el er
  obtain ⟨pl, hl, el⟩ := of_bind el
  obtain ⟨pr, hr, er⟩ := of_bind er
  cases el
  cases er
  obtain ⟨o, ho, hdec⟩ := h _ _ _ _ hl hr
  refine ⟨(compare (utf8 l.1) (utf8 r.1)).then o, ?_,
    codeCompare_append (codeCompare_encodeEscaped ..) fun _ => hdec⟩
  unfold cmpEntry
  cases compare (utf8 l.1) (utf8 r.1) <;> simp [ho]

/-- The codes of two values of one type exist only if the values compare, and
then they are decided by that comparison. -/
theorem encodeValue_agrees (catalog : Catalog) (version n : ℕ) (ty : ScalarType) :
    Agrees (encodeValue catalog version n ty) (cmpTypedInner catalog n ty) := by
  induction n generalizing ty with
  | zero => intro l r bl br hl; cases hl
  | succ n ih =>
    intro l r bl br hl hr
    cases ty with
    | int | timestamp | duration =>
      cases l <;> cases hl
      cases r <;> cases hr
      exact ⟨_, rfl, by
        rw [compare_int64]; exact codeCompare_biased (n := 7) (toInt64_range _) (toInt64_range _)⟩
    | text | bytes =>
      cases l <;> cases hl
      cases r <;> cases hr
      exact ⟨_, rfl, codeCompare_encodeEscaped ..⟩
    | float =>
      obtain ⟨x, rfl, hx, rfl⟩ := encode_float hl
      obtain ⟨y, rfl, hy, rfl⟩ := encode_float hr
      refine ⟨Float64.cmp x y, ?_, ?_⟩
      · change (if _ then _ else _) = _
        simp [hx, hy]
      · rw [codeCompare_beBytes (UInt64.toNat_lt _) (UInt64.toNat_lt _), Float64.compare_ordered]
    | bool =>
      cases l <;> cases hl
      cases r <;> cases hr
      rename_i x y
      exact ⟨_, rfl, by cases x <;> cases y <;> decide⟩
    | uuid =>
      cases l <;> cases hl
      cases r <;> cases hr
      exact ⟨_, rfl, codeCompare_of_length_eq (by rw [Uuid.length_eq, Uuid.length_eq])⟩
    | date =>
      cases l <;> cases hl
      cases r <;> cases hr
      exact ⟨_, rfl, by
        rw [compare_int32]; exact codeCompare_biased (n := 3) (toInt32_range _) (toInt32_range _)⟩
    | decimal p s =>
      obtain ⟨x, rfl, hx, rfl⟩ := encode_decimal hl
      obtain ⟨y, rfl, hy, rfl⟩ := encode_decimal hr
      have hrange : ∀ d : Decimal, -2 ^ 127 ≤ d.coefficient ∧ d.coefficient < 2 ^ 127 := by
        intro d
        have := d.bounded
        omega
      refine ⟨compare x.coefficient y.coefficient, ?_,
        codeCompare_biased (n := 15) (hrange x) (hrange y)⟩
      change (if _ then _ else _) = _
      simp [hx, hy]
    | ref id =>
      obtain ⟨x, d, rfl, hd, hx⟩ := encode_ref hl
      obtain ⟨y, d', rfl, hd', hy⟩ := encode_ref hr
      obtain rfl : d = d' := by simpa [hd] using hd'
      obtain ⟨o, ho, hdec⟩ := ih d.ty _ _ _ _ hx hy
      refine ⟨o, ?_, hdec⟩
      change (if _ then _ else _) = _
      simp [hd, ho]
    | enum variants =>
      obtain ⟨_, largs, lid, _, rfl, hx⟩ := encode_enum hl
      obtain ⟨_, rargs, rid, _, rfl, hy⟩ := encode_enum hr
      exact cmpEnum_of_agrees ih hx hy
    | record columns =>
      obtain ⟨x, m, rfl, hxl, hx⟩ := encode_record hl
      obtain ⟨y, m', rfl, hyl, hy⟩ := encode_record hr
      obtain ⟨o, ho, hdec⟩ := cmpColumns_of_agrees ih hx hy
      refine ⟨o, (if_neg ?_).trans ho, hdec⟩
      simp [hxl, hyl]
    | tuple types =>
      obtain ⟨x, rfl, hxl, hx⟩ := encode_tuple hl
      obtain ⟨y, rfl, hyl, hy⟩ := encode_tuple hr
      obtain ⟨o, ho, hdec⟩ := cmpProduct_of_agrees ih hxl hyl hx hy
      refine ⟨o, ?_, hdec⟩
      change cmpTypedItems _ _ _ _ = _
      simp [cmpTypedItems, hxl, hyl, ho]
    | option inner =>
      rcases encode_option hl with ⟨rfl, rfl⟩ | ⟨x, px, rfl, hx, rfl⟩ <;>
        rcases encode_option hr with ⟨rfl, rfl⟩ | ⟨y, py, rfl, hy, rfl⟩
      · exact ⟨.eq, rfl, rfl⟩
      · exact ⟨.lt, rfl, rfl⟩
      · exact ⟨.gt, rfl, rfl⟩
      · obtain ⟨o, ho, hdec⟩ := ih inner _ _ _ _ hx hy
        exact ⟨o, ho, by simpa using hdec⟩
    | list inner =>
      obtain ⟨x, rfl, hx⟩ := encode_list hl
      obtain ⟨y, rfl, hy⟩ := encode_list hr
      obtain ⟨o, ho, hdec⟩ := cmpZip_of_agrees (ih inner) hx hy
      exact ⟨_, bind_eq_ok.mpr ⟨o, ho, rfl⟩, hdec⟩
    | map inner =>
      obtain ⟨x, rfl, hx⟩ := encode_map hl
      obtain ⟨y, rfl, hy⟩ := encode_map hr
      obtain ⟨o, ho, hdec⟩ := cmpZip_of_agrees (cmpEntry_of_agrees (ih inner)) hx hy
      exact ⟨_, bind_eq_ok.mpr ⟨o, ho, rfl⟩, hdec⟩
    | named name => cases hl

end Values

/-! ## Tuples and complete keys -/

section Tuples
variable {catalog : Catalog} {version : ℕ}

/-- The components of one tuple under an index shape of types and directions. -/
def components (shape : List (ScalarType × Bool)) (values : List Value) : List Component :=
  shape.zipWith (fun s v => ⟨s.1, v, s.2⟩) values

/-- The typed comparison of each component, reversed where it descends. -/
def componentOrders (catalog : Catalog) :
    List (ScalarType × Bool) → List Value → List Value → Result (List Ordering)
  | (ty, descending) :: shape, l :: ls, r :: rs => do
    let o ← catalog.cmpTyped ty l r
    let os ← componentOrders catalog shape ls rs
    pure ((if descending then o.swap else o) :: os)
  | _, _, _ => pure []

/-- The first component that differs decides. -/
def lexicographic (os : List Ordering) : Ordering := os.foldr Ordering.then .eq

theorem lexicographic_eq_iff (os : List Ordering) : lexicographic os = .eq ↔ ∀ o ∈ os, o = .eq := by
  induction os with
  | nil => simp [lexicographic]
  | cons o os ih =>
    simp only [lexicographic, foldr_cons, Ordering.then_eq_eq, forall_mem_cons] at ih ⊢
    rw [ih]

/-- Complementing bytes reverses their order. -/
theorem compare_uint8_not (x y : UInt8) : compare (~~~x) (~~~y) = (compare x y).swap := by
  have hx := x.toNat_lt
  have hy := y.toNat_lt
  have hnot : ∀ z : UInt8, (~~~z).toNat = 255 - z.toNat := fun z => UInt8.toNat_not z
  rcases lt_trichotomy x.toNat y.toNat with h | h | h
  · rw [Std.compare_eq_lt.mpr (UInt8.lt_iff_toNat_lt.mpr h), Std.compare_eq_gt.mpr]
    · rfl
    · rw [UInt8.lt_iff_toNat_lt, hnot, hnot]; omega
  · rw [UInt8.toNat_inj.mp h]
    simp
  · rw [Std.compare_eq_gt.mpr (UInt8.lt_iff_toNat_lt.mpr h), Std.compare_eq_lt.mpr]
    · rfl
    · rw [UInt8.lt_iff_toNat_lt, hnot, hnot]; omega

/-- One component, in either direction. -/
theorem codeCompare_encodeComponent {l r : Component} (hty : l.ty = r.ty)
    (hd : l.descending = r.descending) {bl br : List UInt8}
    (el : encodeComponent catalog version l = .ok bl)
    (er : encodeComponent catalog version r = .ok br) :
    ∃ o, catalog.cmpTyped l.ty l.value r.value = .ok o ∧
      codeCompare bl br = some (if l.descending then o.swap else o) := by
  obtain ⟨cl, hcl, el⟩ := of_bind el
  obtain ⟨cr, hcr, er⟩ := of_bind er
  obtain ⟨o, ho, hdec⟩ := encodeValue_agrees catalog version MAX_DEPTH l.ty _ _ _ _ hcl (hty ▸ hcr)
  refine ⟨o, ho, ?_⟩
  cases el
  cases er
  rw [← hd]
  cases l.descending
  · simpa using hdec
  · simp only [if_true]
    rw [codeCompare_map_antitone _ compare_uint8_not, hdec]
    rfl

variable {left right : List Value} {cs : List Component} {lrow rrow : UInt64} {kl kr : List UInt8}

theorem codeCompare_encodeComponents {shape : List (ScalarType × Bool)}
    (hl : left.length = shape.length) (hr : right.length = shape.length) {bl br : List UInt8}
    (el : encodeComponents catalog version (components shape left) = .ok bl)
    (er : encodeComponents catalog version (components shape right) = .ok br) :
    ∃ os, componentOrders catalog shape left right = .ok os ∧
      codeCompare bl br = some (lexicographic os) := by
  induction shape generalizing left right bl br with
  | nil =>
    cases el
    cases er
    exact ⟨[], rfl, rfl⟩
  | cons s shape ih =>
    obtain ⟨v, left, rfl⟩ := exists_of_length_succ left hl
    obtain ⟨w, right, rfl⟩ := exists_of_length_succ right hr
    obtain ⟨hv, ev, tl, etl, el⟩ := of_bind₂ el
    obtain ⟨hw, ew, tr, etr, er⟩ := of_bind₂ er
    cases el
    cases er
    obtain ⟨o, ho, hdec⟩ := codeCompare_encodeComponent (l := ⟨s.1, v, s.2⟩) (r := ⟨s.1, w, s.2⟩)
      rfl rfl ev ew
    obtain ⟨os, hos, hrest⟩ := ih (by simpa using hl) (by simpa using hr) etl etr
    refine ⟨(if s.2 then o.swap else o) :: os, ?_, ?_⟩
    · exact bind_eq_ok.mpr ⟨o, ho, bind_eq_ok.mpr ⟨os, hos, rfl⟩⟩
    · exact codeCompare_append hdec fun _ => hrest

theorem encodeTupleVersion_eq_ok {b : List UInt8}
    (h : encodeTupleVersion catalog cs version = .ok b) :
    cs.length ≤ MAX_INDEX_COMPONENTS ∧ encodeComponents catalog version cs = .ok b := by
  unfold encodeTupleVersion at h
  obtain ⟨hlen, h⟩ := of_refused h
  exact ⟨not_lt.mp (not_or.mp hlen).2, h⟩

/-- A complete key is a fixed header, the index identity, the tuple and the row
identity. -/
theorem encodeCompleteVersion_eq_ok {indexId rowId : UInt64} {k : List UInt8}
    (h : encodeCompleteVersion catalog indexId cs rowId version = .ok k) :
    ∃ tuple, encodeTupleVersion catalog cs version = .ok tuple ∧
      k = (INDEX_MAGIC ++ beBytes 2 version) ++ (beBytes 8 indexId.toNat ++
        ([UInt8.ofNat cs.length] ++ (tuple ++ beBytes 8 rowId.toNat))) := by
  obtain ⟨tuple, ht, h⟩ := of_bind h
  refine ⟨tuple, ht, ?_⟩
  obtain ⟨-, h⟩ := of_refused h
  dsimp only at h
  obtain ⟨-, h⟩ := of_refused h
  cases h
  simp

/-- Complete keys of different indexes are ordered by the index identity. -/
theorem compare_encodeComplete_of_ne {lid rid : UInt64} {lcs rcs : List Component} (hne : lid ≠ rid)
    (el : encodeCompleteVersion catalog lid lcs lrow version = .ok kl)
    (er : encodeCompleteVersion catalog rid rcs rrow version = .ok kr) :
    compare kl kr = compare lid rid := by
  obtain ⟨tl, -, rfl⟩ := encodeCompleteVersion_eq_ok el
  obtain ⟨tr, -, rfl⟩ := encodeCompleteVersion_eq_ok er
  have hc : compare lid rid ≠ .eq := fun h => hne (Std.LawfulEqOrd.eq_of_compare h)
  rw [compare_append_of_codeCompare (codeCompare_self _), Ordering.eq_then,
    compare_append_of_codeCompare (codeCompare_uint64 lid rid)]
  cases h : compare lid rid <;> simp_all

/-- Complete keys of one index are ordered by tuple, then by row identity. -/
theorem compare_encodeComplete {id : UInt64} {shape : List (ScalarType × Bool)}
    (hl : left.length = shape.length)
    (hr : right.length = shape.length)
    (el : encodeCompleteVersion catalog id (components shape left) lrow version = .ok kl)
    (er : encodeCompleteVersion catalog id (components shape right) rrow version = .ok kr) :
    ∃ os, componentOrders catalog shape left right = .ok os ∧
      compare kl kr = (lexicographic os).then (compare lrow rrow) := by
  obtain ⟨tl, htl, rfl⟩ := encodeCompleteVersion_eq_ok el
  obtain ⟨tr, htr, rfl⟩ := encodeCompleteVersion_eq_ok er
  obtain ⟨os, hos, hdec⟩ := codeCompare_encodeComponents hl hr
    (encodeTupleVersion_eq_ok htl).2 (encodeTupleVersion_eq_ok htr).2
  refine ⟨os, hos, ?_⟩
  have hlen : (components shape left).length = (components shape right).length := by
    simp [components, hl, hr]
  rw [compare_append_of_codeCompare (codeCompare_self _), Ordering.eq_then,
    compare_append_of_codeCompare (codeCompare_self _), Ordering.eq_then, hlen,
    compare_append_of_codeCompare (codeCompare_self _), Ordering.eq_then,
    compare_append_of_codeCompare hdec,
    compare_of_codeCompare (codeCompare_uint64 lrow rrow)]

end Tuples

/-! ## Directions -/

section Directions
variable {catalog : Catalog} {version : ℕ} {b : List UInt8}
  {shape shape' : List (ScalarType × Bool)}

/-- Whether a component encodes, and how long its code is, does not depend on its
direction. -/
theorem encodeComponent_redirect {ty : ScalarType} {value : Value} {d : Bool} (d' : Bool)
    (h : encodeComponent catalog version ⟨ty, value, d⟩ = .ok b) :
    ∃ b', encodeComponent catalog version ⟨ty, value, d'⟩ = .ok b' ∧ b'.length = b.length := by
  obtain ⟨code, hcode, h⟩ := of_bind h
  refine ⟨_, bind_eq_ok.mpr ⟨code, hcode, rfl⟩, ?_⟩
  cases h
  cases d <;> cases d' <;> simp

variable {values left right : List Value} (htypes : shape.map Prod.fst = shape'.map Prod.fst)
include htypes

theorem encodeComponents_redirect
    (h : encodeComponents catalog version (components shape values) = .ok b) :
    ∃ b', encodeComponents catalog version (components shape' values) = .ok b' ∧
      b'.length = b.length := by
  induction shape generalizing shape' values b with
  | nil =>
    obtain rfl : shape' = [] := by simpa using htypes.symm
    exact ⟨b, h, rfl⟩
  | cons s shape ih =>
    obtain ⟨s', shape', rfl, hs, htypes⟩ := map_eq_cons_iff.mp htypes.symm
    cases values with
    | nil => exact ⟨b, h, rfl⟩
    | cons v values =>
      obtain ⟨head, hhead, tail, htail, h⟩ := of_bind₂ h
      cases h
      obtain ⟨head', hhead', hlen⟩ := encodeComponent_redirect s'.2 hhead
      obtain ⟨tail', htail', hlen'⟩ := ih htypes.symm htail
      refine ⟨head' ++ tail', bind_eq_ok.mpr ⟨head', ?_, bind_eq_ok.mpr ⟨tail', htail', rfl⟩⟩, ?_⟩
      · change encodeComponent catalog version ⟨s'.1, v, s'.2⟩ = _
        rw [hs]
        exact hhead'
      · simp [hlen, hlen']

theorem componentOrders_redirect {os os' : List Ordering}
    (h : componentOrders catalog shape left right = .ok os)
    (h' : componentOrders catalog shape' left right = .ok os') :
    (∀ o ∈ os, o = .eq) ↔ ∀ o ∈ os', o = .eq := by
  induction shape generalizing shape' left right os os' with
  | nil =>
    obtain rfl : shape' = [] := by simpa using htypes.symm
    cases h
    cases h'
    exact Iff.rfl
  | cons s shape ih =>
    obtain ⟨s', shape', rfl, hs, htypes⟩ := map_eq_cons_iff.mp htypes.symm
    cases left with
    | nil =>
      cases h
      cases h'
      exact Iff.rfl
    | cons l left =>
      cases right with
      | nil =>
        cases h
        cases h'
        exact Iff.rfl
      | cons r right =>
        obtain ⟨o, ho, os, hos, h⟩ := of_bind₂ h
        obtain ⟨o', ho', os', hos', h'⟩ := of_bind₂ h'
        cases h
        cases h'
        rw [hs, ho] at ho'
        cases ho'
        rw [forall_mem_cons, forall_mem_cons, ih htypes.symm hos hos']
        cases s.2 <;> cases s'.2 <;> simp

/-- **Directions do not decide equality.** Two tuples have equal keys under one
choice of directions exactly when they do under another. -/
theorem encodeTuple_eq_iff_redirect (hl : left.length = shape.length)
    (hr : right.length = shape.length)
    {bl br bl' br' : List UInt8} (el : encodeTuple catalog (components shape left) = .ok bl)
    (er : encodeTuple catalog (components shape right) = .ok br)
    (el' : encodeTuple catalog (components shape' left) = .ok bl')
    (er' : encodeTuple catalog (components shape' right) = .ok br') : bl = br ↔ bl' = br' := by
  have hlen : shape'.length = shape.length := by
    simpa using congrArg List.length htypes.symm
  obtain ⟨os, hos, hdec⟩ := codeCompare_encodeComponents hl hr
    (encodeTupleVersion_eq_ok el).2 (encodeTupleVersion_eq_ok er).2
  obtain ⟨os', hos', hdec'⟩ := codeCompare_encodeComponents (hl.trans hlen.symm)
    (hr.trans hlen.symm) (encodeTupleVersion_eq_ok el').2 (encodeTupleVersion_eq_ok er').2
  have heq {a b : List UInt8} {os : List Ordering}
      (h : codeCompare a b = some (lexicographic os)) : a = b ↔ ∀ o ∈ os, o = .eq := by
    rw [← lexicographic_eq_iff, ← compare_of_codeCompare h, Std.LawfulEqOrd.compare_eq_iff_eq]
  rw [heq hdec, heq hdec', componentOrders_redirect htypes hos hos']

theorem encodeTuple_redirect (h : encodeTuple catalog (components shape values) = .ok b) :
    ∃ b', encodeTuple catalog (components shape' values) = .ok b' ∧ b'.length = b.length := by
  have hlen : (components shape' values).length = (components shape values).length := by
    simp only [components, length_zipWith]
    rw [show shape'.length = shape.length by simpa using congrArg List.length htypes.symm]
  have hempty : (components shape' values).isEmpty = (components shape values).isEmpty := by
    rw [Bool.eq_iff_iff, isEmpty_iff_length_eq_zero, isEmpty_iff_length_eq_zero, hlen]
  obtain ⟨b', hb', hl⟩ := encodeComponents_redirect htypes (encodeTupleVersion_eq_ok h).2
  refine ⟨b', ?_, hl⟩
  unfold encodeTuple encodeTupleVersion at h ⊢
  rw [hempty, hlen]
  obtain ⟨hshape, h⟩ := of_refused h
  rw [if_neg hshape]
  exact hb'

end Directions

/-- **Index keys preserve the typed order.** Whenever both tuples encode, every
component compares, the keys are ordered like the first differing component, and
they are equal exactly when all components are. No component code is a proper
prefix of another one of its type and direction, so the argument composes; and
complete keys are ordered by index identity, tuple and row identity, where
different indexes may have different shapes. The encoder itself rejects values
of another type, so nothing is assumed about the values. -/
theorem encodeTuple_preserves_order (catalog : Catalog) (shape : List (ScalarType × Bool))
    (left right : List Value) (hl : left.length = shape.length) (hr : right.length = shape.length)
    {bl br : List UInt8} (el : encodeTuple catalog (components shape left) = .ok bl)
    (er : encodeTuple catalog (components shape right) = .ok br) :
    ∃ os, componentOrders catalog shape left right = .ok os ∧
      compare bl br = lexicographic os ∧
      (bl = br ↔ ∀ o ∈ os, o = .eq) ∧
      (∀ l r : Component, l.ty = r.ty → l.descending = r.descending →
        ∀ cl cr, encodeComponent catalog MAP_INDEX_KEY_CODEC_VERSION l = .ok cl →
          encodeComponent catalog MAP_INDEX_KEY_CODEC_VERSION r = .ok cr → cl <+: cr → cl = cr) ∧
      (∀ version lid rid lrow rrow kl kr,
        encodeCompleteVersion catalog lid (components shape left) lrow version = .ok kl →
        encodeCompleteVersion catalog rid (components shape right) rrow version = .ok kr →
          compare kl kr = (compare lid rid).then ((lexicographic os).then (compare lrow rrow))) ∧
      (∀ version lid rid lrow rrow lcs rcs kl kr, lid ≠ rid →
        encodeCompleteVersion catalog lid lcs lrow version = .ok kl →
        encodeCompleteVersion catalog rid rcs rrow version = .ok kr →
          compare kl kr = compare lid rid) := by
  obtain ⟨os, hos, hdec⟩ := codeCompare_encodeComponents hl hr
    (encodeTupleVersion_eq_ok el).2 (encodeTupleVersion_eq_ok er).2
  have hcmp := compare_of_codeCompare hdec
  refine ⟨os, hos, hcmp, ?_, ?_, ?_, ?_⟩
  · rw [← lexicographic_eq_iff, ← hcmp, Std.LawfulEqOrd.compare_eq_iff_eq]
  · intro l r hty hd cl cr ecl ecr hp
    obtain ⟨o, -, hcode⟩ := codeCompare_encodeComponent hty hd ecl ecr
    exact eq_of_isPrefix_of_codeCompare hcode (.inl hp)
  · intro version lid rid lrow rrow kl kr ekl ekr
    by_cases hid : lid = rid
    · subst hid
      obtain ⟨os', hos', hk⟩ := compare_encodeComplete hl hr ekl ekr
      obtain rfl : os = os' := by simpa [hos] using hos'
      simpa using hk
    · have hc : compare lid rid ≠ .eq := fun h => hid (Std.LawfulEqOrd.eq_of_compare h)
      rw [compare_encodeComplete_of_ne hid ekl ekr]
      cases h : compare lid rid <;> simp_all
  · intro version lid rid lrow rrow lcs rcs kl kr hid ekl ekr
    exact compare_encodeComplete_of_ne hid ekl ekr

/-- A text ascending and an integer descending: the larger integer comes first. -/
theorem encodeTuple_preserves_order_text_int :
    ∃ bl br, encodeTuple .empty
        (components [(.text, false), (.int, true)] [.text "a", .int 5]) = .ok bl ∧
      encodeTuple .empty
        (components [(.text, false), (.int, true)] [.text "a", .int (-3)]) = .ok br ∧
      compare bl br = .lt := by
  refine ⟨_, _, rfl, rfl, ?_⟩
  obtain ⟨os, hos, hcmp, -⟩ := encodeTuple_preserves_order .empty [(.text, false), (.int, true)]
    [.text "a", .int 5] [.text "a", .int (-3)] rfl rfl rfl rfl
  have horders : componentOrders .empty [(.text, false), (.int, true)]
      [.text "a", .int 5] [.text "a", .int (-3)] = .ok [.eq, .lt] := rfl
  rw [hcmp, Except.ok.inj (hos.symm.trans horders)]
  rfl

end UnionId.OrderedKey
