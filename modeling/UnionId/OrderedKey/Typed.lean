import UnionId.OrderedKey.Order
import UnionId.Model.Typing

/-!
# Keys of typed values

A value of a type always has a key, so two of them always compare. On the values
of one type the four notions of equality of the source agree with identity: the
typed comparison, structural equality, the canonical equality key and the key
bytes.

## Main results

* `HasType.encodeValue_total` — typed values encode.
* `HasType.cmpTypedInner_eq_iff`, `HasType.cmpEq_iff`, `HasType.indexKey_inj` — equality.
-/
namespace UnionId

open Lib Catalog OrderedKey List

variable {catalog : Catalog} {n : ℕ} {ty : ScalarType}

/-! ## Records -/

section Records
variable {columns : List Column} {fields : List (String × Value)}

/-- A record of its columns has as many fields as columns. -/
theorem length_fields (hnames : (columns.map fun c => c.name).Nodup) (hsorted : KeysSorted fields)
    (hknown : ∀ p ∈ fields, ∃ c ∈ columns, c.name = p.1)
    (hcols : ∀ c ∈ columns, ∃ v, fields.lookup c.name = some v) :
    fields.length = columns.length := by
  have hkeys : (fields.map Prod.fst).Nodup := pairwise_map.mpr (hsorted.imp fun h => h.ne)
  have hperm : (fields.map Prod.fst).Perm (columns.map fun c => c.name) := by
    rw [perm_ext_iff_of_nodup hkeys hnames]
    intro k
    constructor
    · intro hk
      obtain ⟨p, hp, rfl⟩ := mem_map.mp hk
      obtain ⟨c, hc, heq⟩ := hknown p hp
      exact mem_map.mpr ⟨c, hc, heq⟩
    · intro hk
      obtain ⟨c, hc, rfl⟩ := mem_map.mp hk
      obtain ⟨v, hv⟩ := hcols c hc
      exact mem_map.mpr ⟨_, mem_of_lookup hv, rfl⟩
  simpa using hperm.length_eq

theorem mem_columnsById {c : Column} : c ∈ columnsById columns ↔ c ∈ columns :=
  (perm_insertionSort _ columns).mem_iff

variable {encode : ScalarType → Value → Result (List UInt8)}

theorem encodeColumns_total {mismatch : Error}
    (h : ∀ c ∈ columns, ∃ v, fields.lookup c.name = some v ∧ ∃ code, encode c.ty v = .ok code) :
    ∃ code, encodeColumns encode mismatch fields columns = .ok code := by
  induction columns with
  | nil => exact ⟨[], rfl⟩
  | cons c columns ih =>
    obtain ⟨⟨v, hlook, head, hhead⟩, hrest⟩ := forall_mem_cons.mp h
    obtain ⟨tail, htail⟩ := ih hrest
    exact ⟨head ++ tail, by simp only [encodeColumns, hlook, hhead, htail, ok_bind, pure_eq_ok]⟩

theorem encodeProduct_total {types : List ScalarType} {items : List Value}
    (h : Forall₂ (fun ty v => ∃ code, encode ty v = .ok code) types items) :
    ∃ code, encodeProduct encode types items = .ok code := by
  induction h with
  | nil => exact ⟨[], rfl⟩
  | cons hhead _ ih =>
    obtain ⟨head, hhead⟩ := hhead
    obtain ⟨tail, htail⟩ := ih
    exact ⟨head ++ tail, by simp only [encodeProduct, hhead, htail, ok_bind, pure_eq_ok]⟩

theorem encodeSequence_total {α : Type} {encode : α → Result (List UInt8)} {items : List α}
    (h : ∀ v ∈ items, ∃ code, encode v = .ok code) :
    ∃ code, encodeSequence encode items = .ok code := by
  induction items with
  | nil => exact ⟨[0], rfl⟩
  | cons v items ih =>
    obtain ⟨⟨head, hhead⟩, hrest⟩ := forall_mem_cons.mp h
    obtain ⟨tail, htail⟩ := ih hrest
    exact ⟨1 :: head ++ tail, by simp only [encodeSequence, hhead, htail, ok_bind, pure_eq_ok]⟩

end Records

theorem findVariant_eq_some {variants : List EnumVariantDef} {variant : EnumVariantDef}
    (hids : (variants.map fun v => v.id).Nodup) (hmem : variant ∈ variants)
    (hne : variant.id ≠ 0) : findVariant variants variant.id = some variant := by
  have hfind : variants.find? (fun d => d.id = variant.id) = some variant :=
    (find?_key_eq_some hids).mpr ⟨hmem, rfl⟩
  rw [findVariant, ← hfind]
  congr 1
  funext d
  by_cases h : d.id = variant.id <;> simp [h, hne]

namespace Catalog.HasType

/-- **Typed values encode.** -/
theorem encodeValue_total {v : Value} (hc : catalog.WellFormed) (hty : ty.WellFormed)
    (h : catalog.HasType n ty v) :
    ∃ code, encodeValue catalog MAP_INDEX_KEY_CODEC_VERSION n ty v = .ok code := by
  induction n generalizing ty v with
  | zero => cases h
  | succ n ih =>
    cases hty with
    | float =>
      obtain ⟨bits, rfl, hfinite, -⟩ := h
      exact ⟨_, by simp only [encodeValue, hfinite, if_true]; rfl⟩
    | int | bool | text | uuid | date | timestamp | duration | bytes =>
      obtain ⟨_, rfl⟩ := h
      exact ⟨_, rfl⟩
    | decimal precision scale =>
      obtain ⟨d, rfl, hd⟩ := h
      exact ⟨_, by simp only [encodeValue, Decimal.rescale_scale hd, if_true]; rfl⟩
    | ref id =>
      obtain ⟨inner, definition, rfl, hdef, hinner⟩ := h
      obtain ⟨code, hcode⟩ := ih (hc id definition hdef) hinner
      exact ⟨code, by simp only [encodeValue, if_true, hdef, ok_bind, hcode]⟩
    | enum ids nonzero args =>
      obtain ⟨variant, hmem, ws, rfl, hws⟩ := h
      obtain ⟨code, hcode⟩ := encodeProduct_total
        (forall₂_imp_mem hws fun ty hty w hw => ih (args variant hmem ty hty) hw)
      exact ⟨_, by
        simp only [encodeValue, encodeEnum, findVariant_eq_some ids hmem (nonzero variant hmem),
          hws.length_eq, ne_eq, not_true_eq_false, if_false, hcode, ok_bind]
        rfl⟩
    | record names types =>
      obtain ⟨fields, rfl, hsorted, hknown, hcols⟩ := h
      have hlen := length_fields names hsorted hknown fun c hc => (hcols c hc).imp fun _ h => h.1
      have hall : ∀ c ∈ columnsById _, ∃ v, fields.lookup c.name = some v ∧
          ∃ code, encodeValue catalog MAP_INDEX_KEY_CODEC_VERSION n c.ty v = .ok code :=
        fun c hc => (hcols c (mem_columnsById.mp hc)).imp fun v hv =>
          ⟨hv.1, ih (types c (mem_columnsById.mp hc)) hv.2⟩
      simp only [encodeValue, hlen, if_true]
      exact encodeColumns_total hall
    | tuple all =>
      obtain ⟨items, rfl, hitems⟩ := h
      simp only [encodeValue, hitems.length_eq, if_true]
      exact encodeProduct_total (forall₂_imp_mem hitems fun ty hty w hw => ih (all ty hty) hw)
    | option inner =>
      obtain rfl | ⟨x, rfl, hx⟩ := h
      · exact ⟨_, rfl⟩
      · obtain ⟨code, hcode⟩ := ih inner hx
        exact ⟨1 :: code, by simp only [encodeValue, hcode, ok_bind, pure_eq_ok]⟩
    | list inner =>
      obtain ⟨items, rfl, hitems⟩ := h
      exact encodeSequence_total fun v hv => ih inner (hitems v hv)
    | map inner =>
      obtain ⟨entries, rfl, -, -, hmem⟩ := h
      refine encodeSequence_total fun e he => ?_
      obtain ⟨code, hcode⟩ := ih inner (hmem e he).2
      exact ⟨_, by simp only [encodeEntry, hcode, ok_bind]; rfl⟩

end Catalog.HasType

/-! ## Equality of leaves -/

namespace Value

/-- A scalar other than a double: structural equality is identity. -/
def isLeaf : Value → Bool
  | .float _ | .enum .. | .record _ | .tuple _ | .list _ | .map _ | .option _ | .named .. => false
  | _ => true

theorem eq_of_cmpEq_leaf {a b : Value} (ha : a.isLeaf = true) (h : a.cmpEq b = true) : a = b := by
  cases a with
  | float | enum | record | tuple | list | map | option | named => cases ha
  | _ =>
    cases b <;> simp_all [cmpEq, Uuid.ext_iff, Date.ext_iff, Timestamp.ext_iff, Duration.ext_iff,
      Decimal.ext_iff, Bytes.ext_iff]

end Value

/-! ## Equality, position by position -/

section Positions
variable {as bs : List Value} {a b : List (String × Value)} {types : List ScalarType}
  {cmp : ScalarType → Value → Value → Result Ordering}

theorem typed_of_mem_zip {R : ScalarType → Value → Prop}
    (ha : Forall₂ R types as) (hb : Forall₂ R types bs) {p : Value × Value}
    (hp : p ∈ as.zip bs) : ∃ ty ∈ types, R ty p.1 ∧ R ty p.2 := by
  induction ha generalizing bs with
  | nil => simp at hp
  | cons hx _ ih =>
    cases hb with
    | cons hy hrest =>
      obtain rfl | hp := mem_cons.mp hp
      · exact ⟨_, mem_cons_self .., hx, hy⟩
      · obtain ⟨ty, hty, h⟩ := ih hrest hp
        exact ⟨ty, mem_cons_of_mem _ hty, h⟩

theorem equalItems_eq (h : ∀ p ∈ as.zip bs, p.1.cmpEq p.2 = true → p.1 = p.2)
    (heq : Value.equalItems as bs = true) : as = bs := by
  induction as generalizing bs with
  | nil => cases bs <;> simp_all [Value.equalItems]
  | cons x as ih =>
    cases bs with
    | nil => simp [Value.equalItems] at heq
    | cons y bs =>
      rw [Value.equalItems, Bool.and_eq_true] at heq
      obtain ⟨hxy, hrest⟩ := forall_mem_cons.mp h
      exact congrArg₂ List.cons (hxy heq.1) (ih hrest heq.2)

theorem equalItems_self (h : ∀ v ∈ as, v.cmpEq v = true) : Value.equalItems as as = true := by
  induction as with
  | nil => rfl
  | cons x as ih =>
    obtain ⟨hx, has⟩ := forall_mem_cons.mp h
    simp [Value.equalItems, hx, ih has]

theorem equalEntries_iff : Value.equalEntries a b = true ↔
    ∀ p ∈ a, ∃ w, b.lookup p.1 = some w ∧ p.2.cmpEq w = true := by
  induction a with
  | nil => simp [Value.equalEntries]
  | cons p a ih =>
    rw [Value.equalEntries, Bool.and_eq_true, ih, forall_mem_cons]
    cases b.lookup p.1 <;> simp

theorem byteNumbers_injective :
    Function.Injective (List.map fun b : UInt8 => IndexKey.number b.toNat) :=
  map_injective_iff.mpr fun _ _ h => UInt8.toNat_inj.mp (by simpa using h)

/-- The key of a value is an array, so it is not the key of a missing option. -/
theorem indexKey_option_ne (v : Value) :
    (Value.option none).indexKey ≠ (Value.option (some v)).indexKey := by
  cases v with
  | option o => cases o <;> simp [Value.indexKey]
  | _ => simp [Value.indexKey]

theorem indexKeyItems_eq (h : ∀ p ∈ as.zip bs, p.1.indexKey = p.2.indexKey → p.1 = p.2)
    (heq : Value.indexKeyItems as = Value.indexKeyItems bs) : as = bs := by
  induction as generalizing bs with
  | nil => cases bs <;> simp_all [Value.indexKeyItems]
  | cons x as ih =>
    cases bs with
    | nil => simp [Value.indexKeyItems] at heq
    | cons y bs =>
      simp only [Value.indexKeyItems, List.cons.injEq] at heq
      obtain ⟨hxy, hrest⟩ := forall_mem_cons.mp h
      exact congrArg₂ List.cons (hxy heq.1) (ih hrest heq.2)

theorem indexKeyEntries_eq
    (h : ∀ p ∈ a.zip b, p.1.1 = p.2.1 → p.1.2.indexKey = p.2.2.indexKey → p.1.2 = p.2.2)
    (heq : Value.indexKeyEntries a = Value.indexKeyEntries b) : a = b := by
  induction a generalizing b with
  | nil => cases b <;> simp_all [Value.indexKeyEntries]
  | cons x a ih =>
    cases b with
    | nil => simp [Value.indexKeyEntries] at heq
    | cons y b =>
      simp only [Value.indexKeyEntries, List.cons.injEq, IndexKey.array.injEq,
        IndexKey.string.injEq, and_true] at heq
      obtain ⟨hxy, hrest⟩ := forall_mem_cons.mp h
      exact congrArg₂ List.cons (Prod.ext heq.1.1 (hxy heq.1.1 heq.1.2)) (ih hrest heq.2)

theorem cmpZip_eq {α : Type} {cmp : α → α → Result Ordering} {as bs : List α}
    (h : ∀ p ∈ as.zip bs, cmp p.1 p.2 = .ok .eq → p.1 = p.2) (hlen : as.length = bs.length)
    (heq : cmpZip cmp as bs = .ok .eq) : as = bs := by
  induction as generalizing bs with
  | nil => exact (length_eq_zero_iff.mp hlen.symm).symm
  | cons x as ih =>
    cases bs with
    | nil => cases hlen
    | cons y bs =>
      obtain ⟨o, ho, heq⟩ := of_bind heq
      obtain ⟨hxy, hrest⟩ := forall_mem_cons.mp h
      cases o with
      | eq => exact congrArg₂ List.cons (hxy ho) (ih hrest (Nat.succ.inj hlen) heq)
      | lt => cases heq
      | gt => cases heq

theorem cmpProduct_eq {R : ScalarType → Value → Prop}
    (ha : Forall₂ R types as) (hb : Forall₂ R types bs)
    (h : ∀ ty ∈ types, ∀ x y, R ty x → R ty y → cmp ty x y = .ok .eq → x = y)
    (heq : cmpProduct cmp types as bs = .ok .eq) : as = bs := by
  induction ha generalizing bs with
  | nil =>
    cases hb
    rfl
  | cons hx _ ih =>
    cases hb with
    | cons hy hb =>
      obtain ⟨o, ho, heq⟩ := of_bind heq
      obtain ⟨hxy, hrest⟩ := forall_mem_cons.mp h
      cases o with
      | eq => exact congrArg₂ List.cons (hxy _ _ hx hy ho) (ih hb hrest heq)
      | lt => cases heq
      | gt => cases heq

theorem cmpColumns_eq {mismatch : Error}
    {columns : List Column} (heq : cmpColumns cmp mismatch a b columns = .ok .eq) :
    ∀ c ∈ columns, ∃ v w, a.lookup c.name = some v ∧ b.lookup c.name = some w ∧
      cmp c.ty v w = .ok .eq := by
  induction columns with
  | nil => simp
  | cons c columns ih =>
    rw [cmpColumns] at heq
    cases hv : a.lookup c.name with
    | none => simp [hv] at heq
    | some v =>
      cases hw : b.lookup c.name with
      | none => simp [hv, hw] at heq
      | some w =>
        simp only [hv, hw] at heq
        obtain ⟨o, ho, heq⟩ := of_bind heq
        cases o with
        | eq => exact forall_mem_cons.mpr ⟨⟨v, w, hv, hw, ho⟩, ih heq⟩
        | lt => cases heq
        | gt => cases heq

end Positions

/-! ## Equality of typed values -/

section TypedRecords
variable {columns : List Column} {a b : List (String × Value)} {R : ScalarType → Value → Prop}

/-- Two records of their columns are equal when all columns agree. -/
theorem record_eq (ha : KeysSorted a) (hb : KeysSorted b)
    (hka : ∀ p ∈ a, ∃ c ∈ columns, c.name = p.1) (hkb : ∀ p ∈ b, ∃ c ∈ columns, c.name = p.1)
    (h : ∀ c ∈ columns, a.lookup c.name = b.lookup c.name) : a = b := by
  refine eq_of_lookup_eq ha hb fun k => ?_
  by_cases hk : ∃ c ∈ columns, c.name = k
  · obtain ⟨c, hc, rfl⟩ := hk
    exact h c hc
  · have hnone : ∀ l : List (String × Value), (∀ p ∈ l, ∃ c ∈ columns, c.name = p.1) →
        l.lookup k = none := by
      intro l hl
      cases hlook : l.lookup k with
      | none => rfl
      | some v => exact absurd (hl _ (mem_of_lookup hlook)) hk
    rw [hnone a hka, hnone b hkb]

theorem typed_of_mem_fields (ha : KeysSorted a) (hka : ∀ p ∈ a, ∃ c ∈ columns, c.name = p.1)
    (hca : ∀ c ∈ columns, ∃ v, a.lookup c.name = some v ∧ R c.ty v) {p : String × Value}
    (hp : p ∈ a) : ∃ c ∈ columns, c.name = p.1 ∧ R c.ty p.2 := by
  obtain ⟨c, hc, hname⟩ := hka p hp
  obtain ⟨v, hlook, hv⟩ := hca c hc
  rw [hname, lookup_of_mem ha hp] at hlook
  cases hlook
  exact ⟨c, hc, hname, hv⟩

theorem typed_of_lookup (hca : ∀ c ∈ columns, ∃ v, a.lookup c.name = some v ∧ R c.ty v)
    {c : Column} (hc : c ∈ columns) {v : Value} (h : a.lookup c.name = some v) : R c.ty v := by
  obtain ⟨w, hw, hR⟩ := hca c hc
  exact Option.some.inj (hw.symm.trans h) ▸ hR

end TypedRecords

namespace Catalog.HasType

variable {x y : Value}

/-- Values of a type that compare equal are the same. -/
theorem eq_of_cmpTypedInner (hc : catalog.WellFormed) (hty : ty.WellFormed)
    (hx : catalog.HasType n ty x) (hy : catalog.HasType n ty y)
    (h : catalog.cmpTypedInner n ty x y = .ok .eq) : x = y := by
  induction n generalizing ty x y with
  | zero => cases hx
  | succ n ih =>
    cases hty with
    | float =>
      obtain ⟨i, rfl, hfi, hzi⟩ := hx
      obtain ⟨j, rfl, hfj, hzj⟩ := hy
      simp only [cmpTypedInner, hfi, hfj, Bool.not_true, Bool.or_self, Bool.false_eq_true,
        if_false, pure_eq_ok, Except.ok.injEq] at h
      rw [← hzi, ← hzj, Float64.normalizeZero_eq_of_cmp h]
    | int | bool | text | uuid | date | timestamp | duration | bytes =>
      obtain ⟨i, rfl⟩ := hx
      obtain ⟨j, rfl⟩ := hy
      have heq := Std.LawfulEqOrd.eq_of_compare (Except.ok.inj h)
      simpa [utf8_inj, Uuid.ext_iff, Date.ext_iff, Timestamp.ext_iff, Duration.ext_iff,
        Bytes.ext_iff] using heq
    | decimal precision scale =>
      obtain ⟨i, rfl, hi⟩ := hx
      obtain ⟨j, rfl, hj⟩ := hy
      have hsi := Decimal.rescale_scale hi
      have hsj := Decimal.rescale_scale hj
      simp only [cmpTypedInner, hsi, hsj, and_self, if_true, pure_eq_ok, Except.ok.injEq] at h
      rw [Decimal.ext (Std.LawfulEqOrd.eq_of_compare h) (hsi.trans hsj.symm)]
    | ref id =>
      obtain ⟨u, definition, rfl, hdef, hu⟩ := hx
      obtain ⟨w, definition', rfl, hdef', hw⟩ := hy
      obtain rfl := Except.ok.inj (hdef.symm.trans hdef')
      simp only [cmpTypedInner, and_self, if_true, hdef, ok_bind] at h
      rw [ih (hc id definition hdef) hu hw h]
    | enum ids nonzero args =>
      obtain ⟨u, hu, as, rfl, has⟩ := hx
      obtain ⟨w, hw, bs, rfl, hbs⟩ := hy
      simp only [cmpTypedInner, cmpEnum, findVariant_eq_some ids hu (nonzero u hu),
        findVariant_eq_some ids hw (nonzero w hw), has.length_eq, hbs.length_eq, ne_eq,
        not_true_eq_false, or_self, if_false] at h
      cases hid : compare u.id w.id with
      | eq =>
        obtain rfl := inj_on_of_nodup_map ids hu hw (Std.LawfulEqOrd.eq_of_compare hid)
        simp only [Std.ReflOrd.compare_self, cmpTypedItems] at h
        obtain ⟨-, h⟩ := of_refused h
        rw [cmpProduct_eq has hbs (fun ty hty x y hx hy => ih (args u hu ty hty) hx hy) h]
      | lt => simp [hid] at h
      | gt => simp [hid] at h
    | record names types =>
      obtain ⟨a, rfl, hsa, hka, hca⟩ := hx
      obtain ⟨b, rfl, hsb, hkb, hcb⟩ := hy
      simp only [cmpTypedInner] at h
      obtain ⟨-, h⟩ := of_refused h
      refine congrArg Value.record (record_eq hsa hsb hka hkb fun c hc => ?_)
      obtain ⟨v, w, hv, hw, hcmp⟩ := cmpColumns_eq h c (mem_columnsById.mpr hc)
      rw [hv, hw, ih (types c hc) (typed_of_lookup hca hc hv) (typed_of_lookup hcb hc hw) hcmp]
    | tuple all =>
      obtain ⟨as, rfl, has⟩ := hx
      obtain ⟨bs, rfl, hbs⟩ := hy
      simp only [cmpTypedInner, cmpTypedItems] at h
      obtain ⟨-, h⟩ := of_refused h
      exact congrArg Value.tuple
        (cmpProduct_eq has hbs (fun ty hty x y hx hy => ih (all ty hty) hx hy) h)
    | option inner =>
      obtain rfl | ⟨u, rfl, hu⟩ := hx <;> obtain rfl | ⟨w, rfl, hw⟩ := hy
      · rfl
      · cases h
      · cases h
      · rw [ih inner hu hw h]
    | list inner =>
      obtain ⟨as, rfl, has⟩ := hx
      obtain ⟨bs, rfl, hbs⟩ := hy
      obtain ⟨o, ho, h⟩ := of_bind h
      obtain ⟨rfl, hlen⟩ := Ordering.then_eq_eq.mp (Except.ok.inj h)
      refine congrArg Value.list (cmpZip_eq (fun p hp hcmp => ?_) (Nat.compare_eq_eq.mp hlen) ho)
      obtain ⟨hp₁, hp₂⟩ := of_mem_zip hp
      exact ih inner (has _ hp₁) (hbs _ hp₂) hcmp
    | map inner =>
      obtain ⟨as, rfl, -, -, has⟩ := hx
      obtain ⟨bs, rfl, -, -, hbs⟩ := hy
      obtain ⟨o, ho, h⟩ := of_bind h
      obtain ⟨rfl, hlen⟩ := Ordering.then_eq_eq.mp (Except.ok.inj h)
      refine congrArg Value.map (cmpZip_eq (fun p hp hcmp => ?_) (Nat.compare_eq_eq.mp hlen) ho)
      obtain ⟨hp₁, hp₂⟩ := of_mem_zip hp
      unfold cmpEntry at hcmp
      split at hcmp
      · rename_i hkey
        exact Prod.ext (utf8_inj.mp (Std.LawfulEqOrd.eq_of_compare hkey))
          (ih inner (has _ hp₁).2 (hbs _ hp₂).2 hcmp)
      · rename_i hne
        exact absurd (Except.ok.inj hcmp) hne

/-- Structural equality of values of a type is identity. -/
theorem eq_of_cmpEq (hc : catalog.WellFormed) (hty : ty.WellFormed)
    (hx : catalog.HasType n ty x) (hy : catalog.HasType n ty y) (h : x.cmpEq y = true) : x = y := by
  induction n generalizing ty x y with
  | zero => cases hx
  | succ n ih =>
    cases hty with
    | float =>
      obtain ⟨i, rfl, hfi, hzi⟩ := hx
      obtain ⟨j, rfl, hfj, hzj⟩ := hy
      simp only [Value.cmpEq, Float64.numEq, Bool.and_eq_true, decide_eq_true_eq] at h
      rw [← hzi, ← hzj, Float64.normalizeZero_congr h.2]
    | decimal precision scale =>
      obtain ⟨i, rfl, -⟩ := hx
      exact Value.eq_of_cmpEq_leaf rfl h
    | ref id =>
      obtain ⟨u, definition, rfl, hdef, hu⟩ := hx
      obtain ⟨w, definition', rfl, hdef', hw⟩ := hy
      obtain rfl := Except.ok.inj (hdef.symm.trans hdef')
      simp only [Value.cmpEq, decide_true, Bool.true_and] at h
      rw [ih (hc id definition hdef) hu hw h]
    | enum ids nonzero args =>
      obtain ⟨u, hu, as, rfl, has⟩ := hx
      obtain ⟨w, hw, bs, rfl, hbs⟩ := hy
      simp only [Value.cmpEq, nonzero u hu, nonzero w hw, or_self, if_false, Bool.and_eq_true,
        decide_eq_true_eq] at h
      obtain rfl := inj_on_of_nodup_map ids hu hw h.1
      rw [equalItems_eq (fun p hp hcmp => ?_) h.2]
      obtain ⟨ty, hty, h₁, h₂⟩ := typed_of_mem_zip has hbs hp
      exact ih (args u hu ty hty) h₁ h₂ hcmp
    | record names types =>
      obtain ⟨a, rfl, hsa, hka, hca⟩ := hx
      obtain ⟨b, rfl, hsb, hkb, hcb⟩ := hy
      simp only [Value.cmpEq, Bool.and_eq_true, equalEntries_iff] at h
      refine congrArg Value.record (record_eq hsa hsb hka hkb fun c hc => ?_)
      obtain ⟨v, hv, htv⟩ := hca c hc
      obtain ⟨w, hw, hcmp⟩ := h.2 _ (mem_of_lookup hv)
      rw [hv, hw, ih (types c hc) htv (typed_of_lookup hcb hc hw) hcmp]
    | tuple all =>
      obtain ⟨as, rfl, has⟩ := hx
      obtain ⟨bs, rfl, hbs⟩ := hy
      rw [equalItems_eq (fun p hp hcmp => ?_) h]
      obtain ⟨ty, hty, h₁, h₂⟩ := typed_of_mem_zip has hbs hp
      exact ih (all ty hty) h₁ h₂ hcmp
    | option inner =>
      obtain rfl | ⟨u, rfl, hu⟩ := hx <;> obtain rfl | ⟨w, rfl, hw⟩ := hy
      · rfl
      · cases h
      · cases h
      · rw [ih inner hu hw h]
    | list inner =>
      obtain ⟨as, rfl, has⟩ := hx
      obtain ⟨bs, rfl, hbs⟩ := hy
      rw [equalItems_eq (fun p hp hcmp => ?_) h]
      obtain ⟨hp₁, hp₂⟩ := of_mem_zip hp
      exact ih inner (has _ hp₁) (hbs _ hp₂) hcmp
    | map inner =>
      obtain ⟨as, rfl, hsa, -, has⟩ := hx
      obtain ⟨bs, rfl, hsb, -, hbs⟩ := hy
      simp only [Value.cmpEq, Bool.and_eq_true, equalEntries_iff, decide_eq_true_eq] at h
      refine congrArg Value.map (hsa.eq_of_subset hsb (fun p hp => ?_) h.1.ge)
      obtain ⟨w, hw, hcmp⟩ := h.2 p hp
      have hmem := mem_of_lookup hw
      exact (show p = (p.1, w) from Prod.ext rfl (ih inner (has p hp).2 (hbs _ hmem).2 hcmp)) ▸ hmem
    | _ =>
      obtain ⟨i, rfl⟩ := hx
      exact Value.eq_of_cmpEq_leaf rfl h

theorem cmpEq_self (hty : ty.WellFormed) (hc : catalog.WellFormed) (hx : catalog.HasType n ty x) :
    x.cmpEq x = true := by
  induction n generalizing ty x with
  | zero => cases hx
  | succ n ih =>
    cases hty with
    | float =>
      obtain ⟨i, rfl, hfinite, -⟩ := hx
      simp [Value.cmpEq, Float64.numEq, Float64.isNaN, hfinite]
    | decimal precision scale =>
      obtain ⟨i, rfl, -⟩ := hx
      simp [Value.cmpEq]
    | ref id =>
      obtain ⟨u, definition, rfl, hdef, hu⟩ := hx
      simp [Value.cmpEq, ih (hc id definition hdef) hu]
    | enum ids nonzero args =>
      obtain ⟨u, hu, as, rfl, has⟩ := hx
      simp only [Value.cmpEq, nonzero u hu, or_self, if_false, decide_true, Bool.true_and]
      refine equalItems_self fun v hv => ?_
      obtain ⟨ty, hty, hv⟩ := typed_of_mem has hv
      exact ih (args u hu ty hty) hv
    | record names types =>
      obtain ⟨a, rfl, hsa, hka, hca⟩ := hx
      simp only [Value.cmpEq, decide_true, Bool.true_and, equalEntries_iff]
      intro p hp
      obtain ⟨c, hc, -, hv⟩ := typed_of_mem_fields hsa hka hca hp
      exact ⟨p.2, lookup_of_mem hsa hp, ih (types c hc) hv⟩
    | tuple all =>
      obtain ⟨as, rfl, has⟩ := hx
      refine equalItems_self fun v hv => ?_
      obtain ⟨ty, hty, hv⟩ := typed_of_mem has hv
      exact ih (all ty hty) hv
    | option inner =>
      obtain rfl | ⟨u, rfl, hu⟩ := hx
      · rfl
      · simpa [Value.cmpEq] using ih inner hu
    | list inner =>
      obtain ⟨as, rfl, has⟩ := hx
      exact equalItems_self fun v hv => ih inner (has v hv)
    | map inner =>
      obtain ⟨as, rfl, hsa, -, has⟩ := hx
      simp only [Value.cmpEq, decide_true, Bool.true_and, equalEntries_iff]
      exact fun p hp => ⟨p.2, lookup_of_mem hsa hp, ih inner (has p hp).2⟩
    | _ =>
      obtain ⟨i, rfl⟩ := hx
      exact decide_eq_true rfl

/-- Values of a type with one canonical equality key are the same. -/
theorem eq_of_indexKey (hc : catalog.WellFormed) (hty : ty.WellFormed)
    (hx : catalog.HasType n ty x) (hy : catalog.HasType n ty y) (h : x.indexKey = y.indexKey) :
    x = y := by
  induction n generalizing ty x y with
  | zero => cases hx
  | succ n ih =>
    cases hty with
    | ref id =>
      obtain ⟨u, definition, rfl, hdef, hu⟩ := hx
      obtain ⟨w, definition', rfl, hdef', hw⟩ := hy
      obtain rfl := Except.ok.inj (hdef.symm.trans hdef')
      simp only [Value.indexKey, IndexKey.array.injEq, List.cons.injEq, and_true, true_and] at h
      rw [ih (hc id definition hdef) hu hw h]
    | enum ids nonzero args =>
      obtain ⟨u, hu, as, rfl, has⟩ := hx
      obtain ⟨w, hw, bs, rfl, hbs⟩ := hy
      simp only [Value.indexKey, IndexKey.array.injEq, List.cons.injEq, and_true, true_and,
        IndexKey.number.injEq, Nat.cast_inj, UInt64.toNat_inj] at h
      obtain rfl := inj_on_of_nodup_map ids hu hw h.1
      rw [indexKeyItems_eq (fun p hp hkey => ?_) h.2.2]
      obtain ⟨ty, hty, h₁, h₂⟩ := typed_of_mem_zip has hbs hp
      exact ih (args u hu ty hty) h₁ h₂ hkey
    | record names types =>
      obtain ⟨a, rfl, hsa, hka, hca⟩ := hx
      obtain ⟨b, rfl, hsb, hkb, hcb⟩ := hy
      simp only [Value.indexKey, IndexKey.array.injEq, List.cons.injEq, and_true, true_and] at h
      rw [indexKeyEntries_eq (fun p hp hname hkey => ?_) h]
      obtain ⟨hp₁, hp₂⟩ := of_mem_zip hp
      obtain ⟨c, hc, hcn, hv⟩ := typed_of_mem_fields hsa hka hca hp₁
      have hw : b.lookup c.name = some p.2.2 := by rw [hcn, hname, lookup_of_mem hsb hp₂]
      exact ih (types c hc) hv (typed_of_lookup hcb hc hw) hkey
    | tuple all =>
      obtain ⟨as, rfl, has⟩ := hx
      obtain ⟨bs, rfl, hbs⟩ := hy
      simp only [Value.indexKey, IndexKey.array.injEq, List.cons.injEq, and_true, true_and] at h
      rw [indexKeyItems_eq (fun p hp hkey => ?_) h]
      obtain ⟨ty, hty, h₁, h₂⟩ := typed_of_mem_zip has hbs hp
      exact ih (all ty hty) h₁ h₂ hkey
    | option inner =>
      obtain rfl | ⟨u, rfl, hu⟩ := hx <;> obtain rfl | ⟨w, rfl, hw⟩ := hy
      · rfl
      · exact absurd h (indexKey_option_ne w)
      · exact absurd h.symm (indexKey_option_ne u)
      · simp only [Value.indexKey, IndexKey.array.injEq, List.cons.injEq, and_true, true_and] at h
        rw [ih inner hu hw h]
    | list inner =>
      obtain ⟨as, rfl, has⟩ := hx
      obtain ⟨bs, rfl, hbs⟩ := hy
      simp only [Value.indexKey, IndexKey.array.injEq, List.cons.injEq, and_true, true_and] at h
      rw [indexKeyItems_eq (fun p hp hkey => ?_) h]
      obtain ⟨hp₁, hp₂⟩ := of_mem_zip hp
      exact ih inner (has _ hp₁) (hbs _ hp₂) hkey
    | map inner =>
      obtain ⟨as, rfl, -, -, has⟩ := hx
      obtain ⟨bs, rfl, -, -, hbs⟩ := hy
      simp only [Value.indexKey, IndexKey.array.injEq, List.cons.injEq, and_true, true_and] at h
      rw [indexKeyEntries_eq (fun p hp _ hkey => ?_) h]
      obtain ⟨hp₁, hp₂⟩ := of_mem_zip hp
      exact ih inner (has _ hp₁).2 (hbs _ hp₂).2 hkey
    | int | bool | text | uuid | date | timestamp | duration | bytes =>
      obtain ⟨i, rfl⟩ := hx
      obtain ⟨j, rfl⟩ := hy
      simpa [Value.indexKey, byteNumbers_injective.eq_iff, Int64.toInt_inj, Int32.toInt_inj,
        Uuid.ext_iff, Date.ext_iff, Timestamp.ext_iff, Duration.ext_iff, Bytes.ext_iff] using h
    | float =>
      obtain ⟨i, rfl, -, hzi⟩ := hx
      obtain ⟨j, rfl, -, hzj⟩ := hy
      simp only [Value.indexKey, IndexKey.array.injEq, List.cons.injEq, IndexKey.number.injEq,
        Nat.cast_inj, UInt64.toNat_inj, hzi, hzj, and_true, true_and] at h
      rw [h]
    | decimal precision scale =>
      obtain ⟨i, rfl, -⟩ := hx
      obtain ⟨j, rfl, -⟩ := hy
      simp only [Value.indexKey, IndexKey.array.injEq, List.cons.injEq, IndexKey.number.injEq,
        Nat.cast_inj, and_true, true_and] at h
      rw [Decimal.ext h.1 h.2]

/-! ## The order -/

/-- **Typed values compare**, in the order of their codes. -/
theorem cmpTypedInner_eq_compare {cx cy : List UInt8}
    (ex : encodeValue catalog MAP_INDEX_KEY_CODEC_VERSION n ty x = .ok cx)
    (ey : encodeValue catalog MAP_INDEX_KEY_CODEC_VERSION n ty y = .ok cy) :
    catalog.cmpTypedInner n ty x y = .ok (compare cx cy) := by
  obtain ⟨o, ho, hcode⟩ := encodeValue_agrees catalog MAP_INDEX_KEY_CODEC_VERSION n
    ty x y cx cy ex ey
  rw [ho, compare_of_codeCompare hcode]

theorem cmpTypedInner_eq_iff (hc : catalog.WellFormed) (hty : ty.WellFormed)
    (hx : catalog.HasType n ty x) (hy : catalog.HasType n ty y) :
    catalog.cmpTypedInner n ty x y = .ok .eq ↔ x = y := by
  refine ⟨hx.eq_of_cmpTypedInner hc hty hy, ?_⟩
  rintro rfl
  obtain ⟨code, hcode⟩ := hx.encodeValue_total hc hty
  rw [cmpTypedInner_eq_compare hcode hcode, Std.ReflOrd.compare_self]

theorem cmpEq_iff (hc : catalog.WellFormed) (hty : ty.WellFormed)
    (hx : catalog.HasType n ty x) (hy : catalog.HasType n ty y) : x.cmpEq y = true ↔ x = y := by
  refine ⟨hx.eq_of_cmpEq hc hty hy, ?_⟩
  rintro rfl
  exact hx.cmpEq_self hty hc

theorem indexKey_inj (hc : catalog.WellFormed) (hty : ty.WellFormed)
    (hx : catalog.HasType n ty x) (hy : catalog.HasType n ty y) : x.indexKey = y.indexKey ↔ x = y :=
  ⟨hx.eq_of_indexKey hc hty hy, congrArg Value.indexKey⟩

end Catalog.HasType
end UnionId
