import UnionId.Model.Define
import UnionId.OrderedKey.Typed
import UnionId.Query.Bind

/-!
# Values of the same type

Two types are the same in an expression when they differ at most in field identities,
defaults and names of variants. A value of the one becomes a value of the other by
coercion, which writes the names of the other's variants. No comparison with `cmpEq`
notices.
-/
namespace UnionId

open Lib Catalog List

/-- The same values are equal to both. -/
def EqualAlike (v w : Value) : Prop := ∀ x : Value, x.cmpEq v = x.cmpEq w

theorem EqualAlike.refl (v : Value) : EqualAlike v v := fun _ => rfl

/-! ## Compound values -/

section Compound
variable {vs ws : List Value} {a b : Fields}

theorem equalItems_alike (h : Forall₂ EqualAlike vs ws) (xs : List Value) :
    Value.equalItems xs vs = Value.equalItems xs ws := by
  induction h generalizing xs with
  | nil => rfl
  | cons hv _ ih =>
    cases xs with
    | nil => rfl
    | cons x xs => rw [Value.equalItems, Value.equalItems, hv x, ih xs]

theorem equalEntries_alike (h : ∀ k, Option.Rel EqualAlike (a.lookup k) (b.lookup k))
    (xs : Fields) :
    Value.equalEntries xs a = Value.equalEntries xs b := by
  induction xs with
  | nil => rfl
  | cons x xs ih =>
    rw [Value.equalEntries, Value.equalEntries, ih]
    congr 1
    have hx := h x.1
    revert hx
    cases a.lookup x.1 <;> cases b.lookup x.1 <;> intro hx <;> cases hx
    · rfl
    · rename_i hv
      exact hv x.2

theorem EqualAlike.tuple (h : Forall₂ EqualAlike vs ws) : EqualAlike (.tuple vs) (.tuple ws) := by
  intro x
  cases x <;> simp [Value.cmpEq, equalItems_alike h]

theorem EqualAlike.list (h : Forall₂ EqualAlike vs ws) : EqualAlike (.list vs) (.list ws) := by
  intro x
  cases x <;> simp [Value.cmpEq, equalItems_alike h]

theorem EqualAlike.record (hlen : a.length = b.length)
    (h : ∀ k, Option.Rel EqualAlike (a.lookup k) (b.lookup k)) :
    EqualAlike (.record a) (.record b) := by
  intro x
  cases x <;> simp [Value.cmpEq, equalEntries_alike h, hlen]

theorem EqualAlike.map (hlen : a.length = b.length)
    (h : ∀ k, Option.Rel EqualAlike (a.lookup k) (b.lookup k)) : EqualAlike (.map a) (.map b) := by
  intro x
  cases x <;> simp [Value.cmpEq, equalEntries_alike h, hlen]

theorem EqualAlike.some {v w : Value} (h : EqualAlike v w) :
    EqualAlike (.option (some v)) (.option (some w)) := by
  intro x
  cases x with
  | option o => cases o <;> simp [Value.cmpEq, h _]
  | _ => simp [Value.cmpEq]

/-- Variants with a stable identity are compared without their names. -/
theorem EqualAlike.enum {id : UInt64} (hid : id ≠ 0) (name name' : String)
    (h : Forall₂ EqualAlike vs ws) : EqualAlike (.enum name vs id) (.enum name' ws id) := by
  intro x
  cases x with
  | enum xname xargs xid =>
    simp only [Value.cmpEq, equalItems_alike h]
    by_cases hx : xid = 0
    · simp [hx, Ne.symm hid]
    · simp [hx, hid]
  | _ => simp [Value.cmpEq]

end Compound

/-! ## Types position by position -/

theorem forall₂_of_sameTypes {R S : ScalarType → Value → Prop} {ss ts : List ScalarType}
    {vs : List Value} (hsame : sameTypes ss ts = true) (h : Forall₂ R ss vs)
    (himp : ∀ s ∈ ss, ∀ t ∈ ts, sameType s t = true → ∀ v, R s v → S t v) : Forall₂ S ts vs := by
  induction h generalizing ts with
  | nil =>
    cases ts with
    | nil => exact .nil
    | cons t ts => simp [sameTypes] at hsame
  | cons hv _ ih =>
    cases ts with
    | nil => simp [sameTypes] at hsame
    | cons t ts =>
      rw [sameTypes, Bool.and_eq_true] at hsame
      refine .cons (himp _ (mem_cons_self ..) t (mem_cons_self ..) hsame.1 _ hv)
        (ih hsame.2 fun s hs t' ht => ?_)
      exact himp s (mem_cons_of_mem _ hs) t' (mem_cons_of_mem _ ht)

theorem forall₂_of_sameColumns {ls rs : List Column} (h : sameColumns ls rs = true) :
    Forall₂ (fun l r => l.name = r.name ∧ sameType l.ty r.ty = true) ls rs := by
  induction ls generalizing rs with
  | nil =>
    cases rs with
    | nil => exact .nil
    | cons r rs => simp [sameColumns] at h
  | cons l ls ih =>
    cases rs with
    | nil => simp [sameColumns] at h
    | cons r rs =>
      obtain ⟨name, ty, default, id⟩ := l
      simp only [sameColumns, Bool.and_eq_true, decide_eq_true_eq] at h
      exact .cons h.1 (ih h.2)

theorem forall₂_and_mem {α β : Type} {R : α → β → Prop} {l : List α} {r : List β}
    (h : Forall₂ R l r) : Forall₂ (fun a b => a ∈ l ∧ b ∈ r ∧ R a b) l r := by
  induction h with
  | nil => exact .nil
  | cons hab _ ih =>
    refine .cons ⟨mem_cons_self .., mem_cons_self .., hab⟩ (ih.imp fun a b hR => ?_)
    exact ⟨mem_cons_of_mem _ hR.1, mem_cons_of_mem _ hR.2.1, hR.2.2⟩

theorem forall₂_of_sameVariants {ls rs : List EnumVariantDef} (h : sameVariants ls rs = true) :
    Forall₂ (fun l r => l.id = r.id ∧ sameTypes l.args r.args = true) ls rs := by
  induction ls generalizing rs with
  | nil =>
    cases rs with
    | nil => exact .nil
    | cons r rs => simp [sameVariants] at h
  | cons l ls ih =>
    cases rs with
    | nil => simp [sameVariants] at h
    | cons r rs =>
      obtain ⟨name, args, id⟩ := l
      simp only [sameVariants, Bool.and_eq_true, decide_eq_true_eq] at h
      exact .cons h.1 (ih h.2)

theorem sameTypes_self {types : List ScalarType} (h : ∀ ty ∈ types, sameType ty ty = true) :
    sameTypes types types = true := by
  induction types with
  | nil => simp [sameTypes]
  | cons ty types ih =>
    obtain ⟨hty, hrest⟩ := forall_mem_cons.mp h
    simp [sameTypes, hty, ih hrest]

theorem sameColumns_self {columns : List Column} (h : ∀ c ∈ columns, sameType c.ty c.ty = true) :
    sameColumns columns columns = true := by
  induction columns with
  | nil => simp [sameColumns]
  | cons c columns ih =>
    obtain ⟨hc, hrest⟩ := forall_mem_cons.mp h
    obtain ⟨name, ty, default, id⟩ := c
    simpa [sameColumns] using ⟨hc, ih hrest⟩

theorem sameVariants_self {variants : List EnumVariantDef}
    (h : ∀ v ∈ variants, ∀ ty ∈ v.args, sameType ty ty = true) :
    sameVariants variants variants = true := by
  induction variants with
  | nil => simp [sameVariants]
  | cons v variants ih =>
    obtain ⟨hv, hrest⟩ := forall_mem_cons.mp h
    obtain ⟨name, args, id⟩ := v
    simpa [sameVariants] using ⟨sameTypes_self hv, ih hrest⟩

theorem sameType_self {ty : ScalarType} (h : ty.WellFormed) : sameType ty ty = true := by
  induction h with
  | record names types ih => simpa [sameType] using sameColumns_self ih
  | enum ids nonzero args ih => simpa [sameType] using sameVariants_self ih
  | tuple all ih => simpa [sameType] using sameTypes_self ih
  | option _ ih | list _ ih | map _ ih => simpa [sameType] using ih
  | _ => simp [sameType]

/-! ## Coercion part by part -/

section Parts
variable {f : Value → ScalarType → Message → Result Value} {T : ScalarType → Value → Prop}
  (label : ℕ → Message) (path : Message)

/-- A value becomes one of the type, and equality does not notice. -/
def Recoerces (f : Value → ScalarType → Message → Result Value) (T : ScalarType → Value → Prop)
    (ty : ScalarType) (v : Value) : Prop :=
  ∀ path, ∃ w, f v ty path = .ok w ∧ T ty w ∧ EqualAlike v w

theorem coerceItems_recoerces {ts : List ScalarType} {vs : List Value} {i : ℕ}
    (h : Forall₂ (Recoerces f T) ts vs) :
    ∃ ws, coerceItems f label i vs ts = .ok ws ∧ Forall₂ T ts ws ∧
      Forall₂ EqualAlike vs ws := by
  induction h generalizing i with
  | nil => exact ⟨[], rfl, .nil, .nil⟩
  | cons hv _ ih =>
    obtain ⟨w, hw, htyped, halike⟩ := hv (label i)
    obtain ⟨ws, hws, htypes, halikes⟩ := ih (i := i + 1)
    exact ⟨w :: ws, by simp only [coerceItems, hw, hws, ok_bind, pure_eq_ok], .cons htyped htypes,
      .cons halike halikes⟩

variable {ty : ScalarType}

theorem coerceEach_recoerces {vs : List Value} {i : ℕ} (h : ∀ v ∈ vs, Recoerces f T ty v) :
    ∃ ws, coerceEach f ty label i vs = .ok ws ∧ (∀ w ∈ ws, T ty w) ∧
      Forall₂ EqualAlike vs ws := by
  induction vs generalizing i with
  | nil => exact ⟨[], rfl, by simp, .nil⟩
  | cons v vs ih =>
    obtain ⟨hv, hrest⟩ := forall_mem_cons.mp h
    obtain ⟨w, hw, htyped, halike⟩ := hv (label i)
    obtain ⟨ws, hws, htypes, halikes⟩ := ih (i := i + 1) hrest
    exact ⟨w :: ws, by simp only [coerceEach, hw, hws, ok_bind, pure_eq_ok],
      forall_mem_cons.mpr ⟨htyped, htypes⟩, .cons halike halikes⟩

/-- Entries with the same keys in the same order. -/
theorem lookup_alike {a b : Fields} (h : Forall₂ (fun p q => p.1 = q.1 ∧ EqualAlike p.2 q.2) a b)
    (k : String) : Option.Rel EqualAlike (a.lookup k) (b.lookup k) := by
  induction h with
  | nil => exact .none
  | cons hp _ ih =>
    rw [lookup_cons_eq, lookup_cons_eq, hp.1]
    split
    · exact .some hp.2
    · exact ih

theorem keysSorted_of_forall₂ {a b : Fields} {R : String × Value → String × Value → Prop}
    (h : Forall₂ (fun p q => p.1 = q.1 ∧ R p q) a b) (ha : KeysSorted a) : KeysSorted b := by
  have hkeys : b.map Prod.fst = a.map Prod.fst := map_eq_of_forall₂ h fun _ _ hp => hp.1.symm
  refine pairwise_map.mp (?_ : (b.map Prod.fst).Pairwise (· < ·))
  rw [hkeys]
  exact pairwise_map.mpr ha

theorem foldlM_entries_recoerces {entries acc : Fields}
    (hsorted : KeysSorted (acc ++ entries))
    (hkeys : ∀ e ∈ entries, (utf8 e.1).length ≤ MAX_MAP_KEY_BYTES)
    (h : ∀ e ∈ entries, Recoerces f T ty e.2) :
    ∃ out, entries.foldlM (coerceEntry f path ty) acc = .ok (acc ++ out) ∧
      Forall₂ (fun p q => p.1 = q.1 ∧ T ty q.2 ∧ EqualAlike p.2 q.2) entries out := by
  induction entries generalizing acc with
  | nil => exact ⟨[], by simp, .nil⟩
  | cons e entries ih =>
    obtain ⟨hkey, hkeys⟩ := forall_mem_cons.mp hkeys
    obtain ⟨hv, hrest⟩ := forall_mem_cons.mp h
    obtain ⟨w, hw, htyped, halike⟩ := hv (path ++ "[" ++ Message.quoted e.1 ++ "]")
    have hins : assocInsert e.1 w acc = acc ++ [(e.1, w)] := assocInsert_of_last fun p hp =>
      (pairwise_append.mp hsorted).2.2 p hp e (mem_cons_self ..)
    have hnext : KeysSorted (acc ++ [(e.1, w)] ++ entries) := by
      have hsame : Forall₂ (fun p q : String × Value => p.1 = q.1 ∧ True) (acc ++ e :: entries)
          (acc ++ (e.1, w) :: entries) :=
        rel_append (forall₂_same.mpr fun _ _ => ⟨rfl, trivial⟩)
          (.cons ⟨rfl, trivial⟩ (forall₂_same.mpr fun _ _ => ⟨rfl, trivial⟩))
      simpa using keysSorted_of_forall₂ hsame hsorted
    obtain ⟨out, hout, hforall⟩ := ih hnext hkeys hrest
    refine ⟨(e.1, w) :: out, ?_, .cons ⟨rfl, htyped, halike⟩ hforall⟩
    rw [foldlM_cons, coerceEntry, if_neg (not_lt.mpr hkey), hw, ok_bind, pure_eq_ok, ok_bind, hins,
      hout, append_assoc, singleton_append]

theorem coerceMap_recoerces {entries : Fields} (hsorted : KeysSorted entries)
    (hlen : entries.length ≤ MAX_MAP_ENTRIES)
    (hkeys : ∀ e ∈ entries, (utf8 e.1).length ≤ MAX_MAP_KEY_BYTES)
    (h : ∀ e ∈ entries, Recoerces f T ty e.2) :
    ∃ out, coerceMap f path entries ty = .ok out ∧ KeysSorted out ∧ out.length ≤ MAX_MAP_ENTRIES ∧
      (∀ e ∈ out, (utf8 e.1).length ≤ MAX_MAP_KEY_BYTES ∧ T ty e.2) ∧
      EqualAlike (.map entries) (.map out) := by
  obtain ⟨out, hout, hforall⟩ := foldlM_entries_recoerces path
    (by simpa using hsorted : KeysSorted ([] ++ entries)) hkeys h
  have hlength := hforall.length_eq
  refine ⟨out, by rw [coerceMap, if_neg (not_lt.mpr hlen)]; exact hout,
    keysSorted_of_forall₂ hforall hsorted, hlength ▸ hlen, fun e he => ?_,
    .map hlength (lookup_alike (hforall.imp fun _ _ hp => ⟨hp.1, hp.2.2⟩))⟩
  obtain ⟨p, hp, hkey, htyped, -⟩ := exists_of_mem_right hforall he
  exact ⟨hkey ▸ hkeys p hp, htyped⟩

theorem coerceRecord_recoerces {fields : Fields} {ls rs : List Column}
    (hcolumns : Forall₂ (fun l r : Column => l.name = r.name ∧ ∃ v,
      fields.lookup l.name = some v ∧ Recoerces f T r.ty v) ls rs)
    (hls : (ls.map fun c => c.name).Nodup) (hrs : (rs.map fun c => c.name).Nodup)
    (hsorted : KeysSorted fields) (hknown : ∀ p ∈ fields, ∃ c ∈ ls, c.name = p.1) :
    ∃ out, coerceRecord f path fields rs = .ok out ∧ KeysSorted out ∧
      (∀ p ∈ out, ∃ c ∈ rs, c.name = p.1) ∧
      (∀ c ∈ rs, ∃ w, out.lookup c.name = some w ∧ T c.ty w) ∧
      EqualAlike (.record fields) (.record out) := by
  have hcol : ∀ c ∈ rs, ∃ v w, fields.lookup c.name = some v ∧
      coerceColumn f path fields c = .ok w ∧ T c.ty w ∧ EqualAlike v w := by
    intro c hc
    obtain ⟨l, -, hname, v, hlook, hv⟩ := exists_of_mem_right hcolumns hc
    obtain ⟨w, hw, htyped, halike⟩ := hv (path ++ "." ++ c.name)
    rw [hname] at hlook
    exact ⟨v, w, hlook, by simp only [coerceColumn, hlook, hw], htyped, halike⟩
  have hnames : ∀ k, (∃ c ∈ ls, c.name = k) → ∃ c ∈ rs, c.name = k := by
    rintro k ⟨l, hl, rfl⟩
    obtain ⟨r, hr, hname, -⟩ := exists_of_mem_right hcolumns.flip hl
    exact ⟨r, hr, hname.symm⟩
  have htotal : ∀ c ∈ rs, Returns (fun _ => False) (coerceColumn f path fields c) fun _ => True :=
    fun c hc => by
      obtain ⟨v, w, -, hw, -⟩ := hcol c hc
      exact .of_ok hw trivial
  obtain ⟨out, hout, -⟩ := (returns_foldlM_columns [] htotal).exists_ok
  obtain ⟨hsorted', hcols, hrest⟩ := foldlM_columns hrs keysSorted_nil hout
  have hout' : ∀ p ∈ out, ∃ c ∈ rs, c.name = p.1 := by
    intro p hp
    by_contra hnone
    push Not at hnone
    have hlook := hrest p.1 hnone
    rw [lookup_of_mem hsorted' hp] at hlook
    simp at hlook
  have hlookup : ∀ c ∈ rs, ∃ v w, fields.lookup c.name = some v ∧ out.lookup c.name = some w ∧
      T c.ty w ∧ EqualAlike v w := by
    intro c hc
    obtain ⟨v, w, hv, hw, htyped, halike⟩ := hcol c hc
    obtain ⟨w', hw', hlook⟩ := hcols c hc
    cases hw.symm.trans hw'
    exact ⟨v, w, hv, hlook, htyped, halike⟩
  have hextra : (fields.map Prod.fst).find? (fun k => !rs.any fun c => c.name == k) = none := by
    rw [find?_eq_none]
    intro k hk
    obtain ⟨p, hp, rfl⟩ := mem_map.mp hk
    obtain ⟨c, hc, heq⟩ := hnames _ (hknown p hp)
    simpa using ⟨c, hc, heq⟩
  refine ⟨out, by rw [coerceRecord, hout, ok_bind, hextra]; rfl, hsorted', hout',
    fun c hc => ?_, .record ?_ fun k => ?_⟩
  · obtain ⟨v, w, -, hlook, htyped, -⟩ := hlookup c hc
    exact ⟨w, hlook, htyped⟩
  · have hfields : fields.length = ls.length := length_fields hls hsorted hknown fun c hc => by
      obtain ⟨r, -, -, v, hv, -⟩ := exists_of_mem_right hcolumns.flip hc
      exact ⟨v, hv⟩
    have houtLength : out.length = rs.length := length_fields hrs hsorted' hout' fun c hc => by
      obtain ⟨v, w, -, hlook, -⟩ := hlookup c hc
      exact ⟨w, hlook⟩
    rw [hfields, houtLength, hcolumns.length_eq]
  · by_cases hk : ∃ c ∈ rs, c.name = k
    · obtain ⟨c, hc, rfl⟩ := hk
      obtain ⟨v, w, hv, hw, -, halike⟩ := hlookup c hc
      rw [hv, hw]
      exact .some halike
    · have hnone : ∀ l : Fields, (∀ p ∈ l, ∃ c ∈ rs, c.name = p.1) → l.lookup k = none := by
        intro l hl
        cases hlook : l.lookup k with
        | none => rfl
        | some v => exact absurd (hl _ (mem_of_lookup hlook)) hk
      rw [hnone fields fun p hp => hnames _ (hknown p hp), hnone out hout']
      exact .none

end Parts

/-! ## Coercion between types that are the same -/

namespace Catalog.HasType

variable {catalog : Catalog} {n : ℕ}

/-- **A value of a type becomes one of every type that is the same**, and equality does not
notice. -/
theorem coerceInner_sameType (hc : catalog.WellFormed)
    (hplain : catalog.Everywhere ScalarType.PlainVariants) {s t : ScalarType} (hs : s.WellFormed)
    (hp : s.Everywhere ScalarType.PlainVariants) (ht : t.WellFormed) (hsame : sameType s t = true)
    {v : Value} (hv : catalog.HasType n s v) :
    Recoerces (catalog.coerceInner n) (catalog.HasType n) t v := by
  induction n generalizing s t v with
  | zero => cases hv
  | succ n ih =>
    have hequal : s = t → Recoerces (catalog.coerceInner (n + 1))
        (catalog.HasType (n + 1)) t v := by
      rintro rfl path
      exact ⟨v, hv.coerceInner_eq hc hplain hs hp path, hv, .refl v⟩
    cases hs with
    | int | float | bool | text | uuid | date | timestamp | duration | bytes =>
      cases t <;> simp [sameType] at hsame
      exact hequal rfl
    | decimal precision scale =>
      cases t <;> simp [sameType] at hsame
      exact hequal (by rw [hsame.1, hsame.2])
    | ref id =>
      cases t <;> simp [sameType] at hsame
      exact hequal (by rw [hsame])
    | option inner =>
      cases ht with
      | option inner' =>
        rw [sameType] at hsame
        intro path
        obtain rfl | ⟨x, rfl, hx⟩ := hv
        · exact ⟨.option none, rfl, .inl rfl, .refl _⟩
        · obtain ⟨w, hw, htyped, halike⟩ := ih inner hp.option inner' hsame hx path
          exact ⟨.option (some w), by simp only [coerceInner, hw, ok_bind, pure_eq_ok],
            .inr ⟨w, rfl, htyped⟩, halike.some⟩
      | _ => simp [sameType] at hsame
    | list inner =>
      cases ht with
      | list inner' =>
        rw [sameType] at hsame
        intro path
        obtain ⟨items, rfl, hitems⟩ := hv
        obtain ⟨ws, hws, htyped, halike⟩ := coerceEach_recoerces
          (fun i => path ++ ("[" ++ toString i ++ "]" : String)) (i := 0)
          fun x hx => ih inner hp.list inner' hsame (hitems x hx)
        exact ⟨.list ws, by simp only [coerceInner, hws, ok_bind, pure_eq_ok], ⟨ws, rfl, htyped⟩,
          .list halike⟩
      | _ => simp [sameType] at hsame
    | map inner =>
      cases ht with
      | map inner' =>
        rw [sameType] at hsame
        intro path
        obtain ⟨entries, rfl, hsorted, hlen, hmem⟩ := hv
        obtain ⟨out, hout, hsorted', hlen', hmem', halike⟩ := coerceMap_recoerces path hsorted hlen
          (fun e he => (hmem e he).1) fun e he => ih inner hp.map inner' hsame (hmem e he).2
        exact ⟨.map out, by simp only [coerceInner, hout, ok_bind, pure_eq_ok],
          ⟨out, rfl, hsorted', hlen', hmem'⟩, halike⟩
      | _ => simp [sameType] at hsame
    | tuple all =>
      cases ht with
      | tuple all' =>
        rw [sameType] at hsame
        intro path
        obtain ⟨items, rfl, hitems⟩ := hv
        have hrec := forall₂_of_sameTypes hsame hitems fun s hs t ht hst v hv =>
          ih (all s hs) (hp.item hs) (all' t ht) hst hv
        obtain ⟨ws, hws, htyped, halike⟩ := coerceItems_recoerces
          (fun i => path ++ ("." ++ toString i : String)) (i := 0) hrec
        exact ⟨.tuple ws, by simp only [coerceInner, hrec.length_eq, if_true, hws,
          ok_bind, pure_eq_ok],
          ⟨ws, rfl, htyped⟩, .tuple halike⟩
      | _ => simp [sameType] at hsame
    | record names types =>
      cases ht with
      | record names' types' =>
        rw [sameType] at hsame
        intro path
        obtain ⟨fields, rfl, hsorted, hknown, hcols⟩ := hv
        have hcolumns : Forall₂ (fun l r : Column =>
            l.name = r.name ∧ ∃ v, fields.lookup l.name = some v ∧
            Recoerces (catalog.coerceInner n) (catalog.HasType n) r.ty v) _ _ :=
          (forall₂_and_mem (forall₂_of_sameColumns hsame)).imp fun l r h => by
            obtain ⟨hl, hr, hname, hty⟩ := h
            obtain ⟨v, hlook, hv⟩ := hcols l hl
            exact ⟨hname, v, hlook, ih (types l hl) (hp.field hl) (types' r hr) hty hv⟩
        obtain ⟨out, hout, hsorted', hknown', hcols', halike⟩ :=
          coerceRecord_recoerces path hcolumns names names' hsorted hknown
        exact ⟨.record out, by simp only [coerceInner, hout, ok_bind, pure_eq_ok],
          ⟨out, rfl, hsorted', hknown', hcols'⟩, halike⟩
      | _ => simp [sameType] at hsame
    | enum ids nonzero args =>
      cases ht with
      | enum ids' nonzero' args' =>
        rw [sameType] at hsame
        intro path
        obtain ⟨variant, hmem, vs, rfl, hvs⟩ := hv
        obtain ⟨variant', hmem', hid, hargs⟩ :=
          exists_of_mem_right (forall₂_of_sameVariants hsame).flip hmem
        have hrec := forall₂_of_sameTypes hargs hvs fun s hs t ht hst v hv =>
          ih (args variant hmem s hs) (hp.arg hmem hs) (args' variant' hmem' t ht) hst hv
        obtain ⟨ws, hws, htyped, halike⟩ := coerceItems_recoerces
          (fun i => path ++ "." ++ variant'.name ++ ("[" ++ toString i ++ "]" : String))
          (i := 0) hrec
        refine ⟨.enum variant'.name ws variant'.id, ?_, ⟨variant', hmem', ws, rfl, htyped⟩, ?_⟩
        · have hfind : List.find? (fun d : EnumVariantDef => d.id = variant'.id) _ =
            some variant' :=
            (find?_key_eq_some ids').mpr ⟨hmem', rfl⟩
          simp only [coerceInner, coerceEnum, unqualifiedVariant, hp.here variant hmem,
            pure_eq_ok, ok_bind,
            hid, if_neg (nonzero' variant' hmem'), hfind, hrec.length_eq, ne_eq, not_true_eq_false,
            if_false, hws]
        · rw [hid]
          exact .enum (nonzero' variant' hmem') _ _ halike
      | _ => simp [sameType] at hsame

end Catalog.HasType

end UnionId
