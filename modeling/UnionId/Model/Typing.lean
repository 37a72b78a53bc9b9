import UnionId.Model.Coerce
import UnionId.Lib.Limited

/-!
# Typing of values

`HasType catalog n ty v` says that `v` is a canonical value of `ty`, nested at most
`n` deep. It is the declarative reading of `coerce`: what coercion returns has the
type, and a value of the type is left as it is. So coercion is a projection onto
the typed values, and a well-typed value is the same as a typed one.
-/
namespace UnionId

open Lib List

/-! ## Well-formed types -/

/-- Columns of a record have distinct names. Variants have distinct identities,
none of them zero. -/
inductive ScalarType.WellFormed : ScalarType → Prop
  | int : WellFormed .int
  | float : WellFormed .float
  | bool : WellFormed .bool
  | text : WellFormed .text
  | uuid : WellFormed .uuid
  | date : WellFormed .date
  | timestamp : WellFormed .timestamp
  | duration : WellFormed .duration
  | decimal (precision scale : ℕ) : WellFormed (.decimal precision scale)
  | bytes : WellFormed .bytes
  | enum {variants : List EnumVariantDef} (ids : (variants.map fun v => v.id).Nodup)
      (nonzero : ∀ v ∈ variants, v.id ≠ 0)
      (args : ∀ v ∈ variants, ∀ ty ∈ v.args, WellFormed ty) : WellFormed (.enum variants)
  | record {columns : List Column} (names : (columns.map fun c => c.name).Nodup)
      (types : ∀ c ∈ columns, WellFormed c.ty) : WellFormed (.record columns)
  | tuple {types : List ScalarType} (all : ∀ ty ∈ types, WellFormed ty) : WellFormed (.tuple types)
  | option {ty : ScalarType} (inner : WellFormed ty) : WellFormed (.option ty)
  | list {ty : ScalarType} (inner : WellFormed ty) : WellFormed (.list ty)
  | map {ty : ScalarType} (inner : WellFormed ty) : WellFormed (.map ty)
  | ref (id : UInt64) : WellFormed (.ref id)

/-- The types a type is built from, without following named types. -/
def ScalarType.parts : ScalarType → List ScalarType
  | .enum variants => variants.flatMap fun v => v.args
  | .record columns => columns.map fun c => c.ty
  | .tuple types => types
  | .option ty | .list ty | .map ty => [ty]
  | _ => []

/-- `P` holds of a type and of all its parts. -/
inductive ScalarType.Everywhere (P : ScalarType → Prop) : ScalarType → Prop
  | node {ty : ScalarType} (here : P ty) (below : ∀ part ∈ ty.parts, Everywhere P part) :
      Everywhere P ty

/-- The fields of a record have distinct names. -/
def ScalarType.UniqueFieldNames : ScalarType → Prop
  | .record columns => (columns.map fun c => c.name).Nodup
  | _ => True

/-- The fields of a record have distinct identities, and so do the variants of an
enumeration. -/
def ScalarType.UniqueIds : ScalarType → Prop
  | .record columns => (columns.map fun c => c.id).Nodup
  | .enum variants => (variants.map fun v => v.id).Nodup
  | _ => True

/-- Variant names carry no qualifier: coercion reads what stands before a dot as the name
of a type. -/
def ScalarType.PlainVariants : ScalarType → Prop
  | .enum variants => ∀ v ∈ variants, rsplitOnce '.' v.name = none
  | _ => True

namespace ScalarType.Everywhere

variable {P : ScalarType → Prop} {ty : ScalarType}

theorem here (h : ty.Everywhere P) : P ty := by
  cases h
  assumption

/-- A type without parts. -/
theorem leaf (here : P ty) (hparts : ty.parts = []) : ty.Everywhere P :=
  .node here fun _ hpart => absurd (hparts ▸ hpart) not_mem_nil

theorem imp {Q : ScalarType → Prop} (h : ty.Everywhere P) (hPQ : ∀ ty, P ty → Q ty) :
    ty.Everywhere Q := by
  induction h with
  | node here _ ih => exact .node (hPQ _ here) ih

theorem field {columns : List Column} (h : (ScalarType.record columns).Everywhere P) {c : Column}
    (hc : c ∈ columns) : c.ty.Everywhere P := by
  cases h with
  | node _ below => exact below _ (mem_map_of_mem hc)

theorem arg {variants : List EnumVariantDef} (h : (ScalarType.enum variants).Everywhere P)
    {v : EnumVariantDef} (hv : v ∈ variants) (hty : ty ∈ v.args) : ty.Everywhere P := by
  cases h with
  | node _ below => exact below _ (mem_flatMap.mpr ⟨v, hv, hty⟩)

theorem item {types : List ScalarType} (h : (ScalarType.tuple types).Everywhere P)
    (hty : ty ∈ types) : ty.Everywhere P := by
  cases h with
  | node _ below => exact below _ hty

theorem option (h : (ScalarType.option ty).Everywhere P) : ty.Everywhere P := by
  cases h with
  | node _ below => exact below _ (mem_singleton_self ty)

theorem list (h : (ScalarType.list ty).Everywhere P) : ty.Everywhere P := by
  cases h with
  | node _ below => exact below _ (mem_singleton_self ty)

theorem map (h : (ScalarType.map ty).Everywhere P) : ty.Everywhere P := by
  cases h with
  | node _ below => exact below _ (mem_singleton_self ty)

end ScalarType.Everywhere

/-- The fields of a record have distinct names, and the variants of an enumeration
distinct identities. -/
def ScalarType.Distinct : ScalarType → Prop
  | .record columns => (columns.map fun c => c.name).Nodup
  | .enum variants => (variants.map fun v => v.id).Nodup
  | _ => True

theorem ScalarType.WellFormed.distinct {ty : ScalarType} (h : ty.WellFormed) :
    ty.Everywhere Distinct := by
  induction h with
  | enum ids nonzero args ih =>
    refine .node ids fun part hpart => ?_
    obtain ⟨v, hv, hpart⟩ := mem_flatMap.mp hpart
    exact ih v hv part hpart
  | record names types ih =>
    refine .node names fun part hpart => ?_
    obtain ⟨c, hc, rfl⟩ := mem_map.mp hpart
    exact ih c hc
  | tuple all ih => exact .node trivial ih
  | option inner ih | list inner ih | map inner ih =>
    exact .node trivial fun part hpart => mem_singleton.mp hpart ▸ ih
  | _ => exact .leaf trivial rfl

theorem ScalarType.WellFormed.uniqueFieldNames {ty : ScalarType} (h : ty.WellFormed) :
    ty.Everywhere UniqueFieldNames := by
  refine h.distinct.imp fun ty hty => ?_
  cases ty with
  | record columns => exact hty
  | _ => trivial

namespace Catalog

/-- Every registered definition is well formed. -/
def WellFormed (catalog : Catalog) : Prop :=
  ∀ (id : UInt64) (definition : TypeDefinition), catalog.definition id = .ok definition →
    definition.ty.WellFormed

/-- `P` holds everywhere in every registered definition. -/
def Everywhere (catalog : Catalog) (P : ScalarType → Prop) : Prop :=
  ∀ (id : UInt64) (definition : TypeDefinition), catalog.definition id = .ok definition →
    definition.ty.Everywhere P

theorem everywhere_empty (P : ScalarType → Prop) : Catalog.empty.Everywhere P := by
  intro id d hd
  simp [definition, empty] at hd

theorem WellFormed.uniqueFieldNames {catalog : Catalog} (h : catalog.WellFormed) :
    catalog.Everywhere ScalarType.UniqueFieldNames :=
  fun id definition hdef => (h id definition hdef).uniqueFieldNames

/-! ## The judgement -/

/-- A canonical value of a type, nested at most `n` deep. -/
def HasType (catalog : Catalog) : ℕ → ScalarType → Value → Prop
  | 0, _, _ => False
  | n + 1, ty, value =>
    match ty with
    | .int => ∃ v, value = .int v
    | .float => ∃ bits, value = .float bits ∧ Float64.isFinite bits = true ∧
        Float64.normalizeZero bits = bits
    | .bool => ∃ v, value = .bool v
    | .text => ∃ v, value = .text v
    | .uuid => ∃ v, value = .uuid v
    | .date => ∃ v, value = .date v
    | .timestamp => ∃ v, value = .timestamp v
    | .duration => ∃ v, value = .duration v
    | .decimal precision scale => ∃ v, value = .decimal v ∧ v.rescale precision scale = .ok v
    | .bytes => ∃ v, value = .bytes v
    | .ref id => ∃ inner definition, value = .named id inner ∧
        catalog.definition id = .ok definition ∧ HasType catalog n definition.ty inner
    | .enum variants => ∃ variant ∈ variants, ∃ args, value = .enum variant.name args variant.id ∧
        Forall₂ (HasType catalog n) variant.args args
    | .record columns => ∃ fields, value = .record fields ∧ KeysSorted fields ∧
        (∀ p ∈ fields, ∃ c ∈ columns, c.name = p.1) ∧
        ∀ c ∈ columns, ∃ v, fields.lookup c.name = some v ∧ HasType catalog n c.ty v
    | .tuple types => ∃ items, value = .tuple items ∧ Forall₂ (HasType catalog n) types items
    | .option ty => value = .option none ∨ ∃ v, value = .option (some v) ∧ HasType catalog n ty v
    | .list ty => ∃ items, value = .list items ∧ ∀ v ∈ items, HasType catalog n ty v
    | .map ty => ∃ entries, value = .map entries ∧ KeysSorted entries ∧
        entries.length ≤ MAX_MAP_ENTRIES ∧
        ∀ e ∈ entries, (utf8 e.1).length ≤ MAX_MAP_KEY_BYTES ∧ HasType catalog n ty e.2
    | .named _ => False

/-! ## Items and records -/

section Items
variable {f : Value → ScalarType → Message → Result Value} {label : ℕ → Message} {path : Message}
  {ws : List Value} {tys : List ScalarType} {i : ℕ} {ty : ScalarType}
  {fields acc out entries : List (String × Value)} {columns : List Column} {vs args : List Value}
  {R : ScalarType → Value → Prop} {g : Column → Result Value} {bad : Error}
  {variants : List EnumVariantDef} {limit : Error → Prop}

theorem coerceItems_eq_ok
    (hlen : vs.length = tys.length) (h : coerceItems f label i vs tys = .ok ws) :
    Forall₂ (fun ty w => ∃ v path, f v ty path = .ok w) tys ws := by
  induction vs generalizing tys ws i with
  | nil =>
    obtain rfl : tys = [] := length_eq_zero_iff.mp hlen.symm
    cases h
    exact .nil
  | cons v vs ih =>
    cases tys with
    | nil => cases hlen
    | cons ty tys =>
      obtain ⟨w, hw, rest, hrest, h⟩ := of_bind₂ h
      cases h
      exact .cons ⟨v, _, hw⟩ (ih (Nat.succ.inj hlen) hrest)

theorem returns_coerceItems
    (h : Forall₂ (fun ty w => ∀ path, Returns limit (f w ty path) (· = w)) tys ws) :
    Returns limit (coerceItems f label i ws tys) (· = ws) := by
  induction h generalizing i with
  | nil => exact .ok rfl
  | cons hw _ ih =>
    refine (hw _).bind ?_
    rintro _ rfl
    refine ih.bind ?_
    rintro _ rfl
    exact .ok rfl

theorem coerceEach_eq_ok
    (h : coerceEach f ty label i vs = .ok ws) : ∀ w ∈ ws, ∃ v path, f v ty path = .ok w := by
  induction vs generalizing ws i with
  | nil =>
    cases h
    simp
  | cons v vs ih =>
    obtain ⟨w, hw, rest, hrest, h⟩ := of_bind₂ h
    cases h
    exact forall_mem_cons.mpr ⟨⟨v, _, hw⟩, ih hrest⟩

theorem returns_coerceEach (h : ∀ w ∈ ws, ∀ path, Returns limit (f w ty path) (· = w)) :
    Returns limit (coerceEach f ty label i ws) (· = ws) := by
  induction ws generalizing i with
  | nil => exact .ok rfl
  | cons w ws ih =>
    obtain ⟨hw, hws⟩ := forall_mem_cons.mp h
    refine (hw _).bind ?_
    rintro _ rfl
    refine (ih hws).bind ?_
    rintro _ rfl
    exact .ok rfl

theorem forall₂_imp_mem {S : ScalarType → Value → Prop} (h : Forall₂ R tys ws)
    (hRS : ∀ ty ∈ tys, ∀ w, R ty w → S ty w) :
    Forall₂ S tys ws := by
  induction h with
  | nil => exact .nil
  | cons hw _ ih =>
    obtain ⟨hty, htys⟩ := forall_mem_cons.mp hRS
    exact .cons (hty _ hw) (ih htys)

theorem typed_of_mem {types : List ScalarType}
    {as : List Value} (ha : Forall₂ R types as) {v : Value} (hv : v ∈ as) :
    ∃ ty ∈ types, R ty v := by
  induction ha with
  | nil => simp at hv
  | cons hx _ ih =>
    obtain rfl | hv := mem_cons.mp hv
    · exact ⟨_, mem_cons_self .., hx⟩
    · obtain ⟨ty, hty, h⟩ := ih hv
      exact ⟨ty, mem_cons_of_mem _ hty, h⟩

/-- A column holds a coerced value: of the field or of its default. -/
theorem coerceColumn_eq_ok {column : Column} {w : Value}
    (h : coerceColumn f path fields column = .ok w) : ∃ v path, f v column.ty path = .ok w := by
  simp only [coerceColumn] at h
  split at h
  · exact ⟨_, _, h⟩
  · split at h
    · exact ⟨_, _, h⟩
    · cases h

/-- The fold over the columns binds exactly their names, each to its own value. -/
theorem foldlM_columns (hnames : (columns.map fun c => c.name).Nodup)
    (hacc : KeysSorted acc) (h : columns.foldlM (fun out column => do
      let value ← g column
      pure (assocInsert column.name value out)) acc = .ok out) :
    KeysSorted out ∧ (∀ c ∈ columns, ∃ w, g c = .ok w ∧ out.lookup c.name = some w) ∧
      ∀ k, (∀ c ∈ columns, c.name ≠ k) → out.lookup k = acc.lookup k := by
  induction columns generalizing acc with
  | nil =>
    cases h
    exact ⟨hacc, by simp, fun _ _ => rfl⟩
  | cons c columns ih =>
    rw [foldlM_cons, bind_eq_ok] at h
    obtain ⟨acc', hstep, h⟩ := h
    obtain ⟨w, hw, rfl⟩ := of_bind_pure hstep
    rw [map_cons, nodup_cons] at hnames
    obtain ⟨hsorted, hcols, hrest⟩ := ih hnames.2 (keysSorted_assocInsert _ _ hacc) h
    have hfresh : ∀ c' ∈ columns, c'.name ≠ c.name := fun c' hc' heq =>
      hnames.1 (mem_map.mpr ⟨c', hc', heq⟩)
    refine ⟨hsorted, forall_mem_cons.mpr ⟨⟨w, hw, ?_⟩, hcols⟩, fun k hk => ?_⟩
    · rw [hrest c.name hfresh, lookup_assocInsert, if_pos rfl]
    · obtain ⟨hkc, hk⟩ := forall_mem_cons.mp hk
      rw [hrest k hk, lookup_assocInsert, if_neg (Ne.symm hkc)]

theorem coerceRecord_eq_ok (hnames : (columns.map fun c => c.name).Nodup)
    (h : coerceRecord f path fields columns = .ok out) :
    KeysSorted out ∧ (∀ p ∈ out, ∃ c ∈ columns, c.name = p.1) ∧
      ∀ c ∈ columns, ∃ w, out.lookup c.name = some w ∧ coerceColumn f path fields c = .ok w := by
  obtain ⟨built, hbuilt, h⟩ := of_bind h
  obtain ⟨hsorted, hcols, hrest⟩ := foldlM_columns hnames keysSorted_nil hbuilt
  split at h
  · cases h
  · cases h
    refine ⟨hsorted, fun p hp => ?_, fun c hc => ?_⟩
    · by_contra hnone
      push Not at hnone
      have hlook := hrest p.1 hnone
      rw [lookup_of_mem hsorted hp] at hlook
      simp at hlook
    · obtain ⟨w, hw, hlook⟩ := hcols c hc
      exact ⟨w, hlook, hw⟩

theorem returns_foldlM_columns {P : Value → Prop} (acc : List (String × Value))
    (h : ∀ c ∈ columns, Returns limit (g c) P) :
    Returns limit (columns.foldlM (fun out column => do
      let value ← g column
      pure (assocInsert column.name value out)) acc) fun _ => True := by
  induction columns generalizing acc with
  | nil => exact .ok trivial
  | cons c columns ih =>
    obtain ⟨hc, hrest⟩ := forall_mem_cons.mp h
    rw [foldlM_cons]
    exact (hc.bind (R := fun _ => True) fun w _ => .ok trivial).bind fun acc' _ => ih acc' hrest

theorem returns_coerceRecord
    (hnames : (columns.map fun c => c.name).Nodup) (hsorted : KeysSorted fields)
    (hknown : ∀ p ∈ fields, ∃ c ∈ columns, c.name = p.1)
    (hfixed : ∀ c ∈ columns, ∃ v, fields.lookup c.name = some v ∧
      ∀ path, Returns limit (f v c.ty path) (· = v)) :
    Returns limit (coerceRecord f path fields columns) (· = fields) := by
  have hcol : ∀ c ∈ columns, ∃ v, fields.lookup c.name = some v ∧
      Returns limit (coerceColumn f path fields c) (· = v) := by
    intro c hc
    obtain ⟨v, hlook, hv⟩ := hfixed c hc
    exact ⟨v, hlook, by simpa only [coerceColumn, hlook] using hv _⟩
  refine (returns_foldlM_columns (P := fun _ => True) [] fun c hc => ?_).outcome.bind
    fun out ⟨hout, _⟩ => ?_
  · obtain ⟨v, -, hv⟩ := hcol c hc
    exact hv.mono fun _ _ => trivial
  obtain ⟨hsorted', hcols, hrest⟩ := foldlM_columns hnames keysSorted_nil hout
  have hsame : out = fields := by
    refine eq_of_lookup_eq hsorted' hsorted fun k => ?_
    by_cases hk : ∃ c ∈ columns, c.name = k
    · obtain ⟨c, hc, rfl⟩ := hk
      obtain ⟨w, hw, hlook⟩ := hcols c hc
      obtain ⟨v, hlook', hv⟩ := hcol c hc
      rw [hlook, hlook', hv.eq_of_ok hw]
    · push Not at hk
      rw [hrest k hk, eq_comm, lookup_nil]
      cases hlook : fields.lookup k with
      | none => rfl
      | some v =>
        obtain ⟨c, hc, heq⟩ := hknown _ (mem_of_lookup hlook)
        exact absurd heq (hk c hc)
  have hextra : (fields.map Prod.fst).find? (fun k => !columns.any fun c =>
      c.name == k) = none := by
    rw [find?_eq_none]
    intro k hk
    obtain ⟨p, hp, rfl⟩ := mem_map.mp hk
    obtain ⟨c, hc, heq⟩ := hknown p hp
    simpa using ⟨c, hc, heq⟩
  rw [hextra, hsame]
  exact .ok rfl

theorem foldlM_entries (hacc : KeysSorted acc)
    (h : entries.foldlM (coerceEntry f path ty) acc = .ok out) :
    KeysSorted out ∧ out.length ≤ acc.length + entries.length ∧
      ∀ e ∈ out, e ∈ acc ∨ (utf8 e.1).length ≤ MAX_MAP_KEY_BYTES ∧
        ∃ v path, f v ty path = .ok e.2 := by
  induction entries generalizing acc with
  | nil =>
    cases h
    exact ⟨hacc, le_rfl, fun e he => .inl he⟩
  | cons entry entries ih =>
    rw [foldlM_cons, bind_eq_ok] at h
    obtain ⟨acc', hstep, h⟩ := h
    unfold coerceEntry at hstep
    obtain ⟨hkey, hstep⟩ := of_refused hstep
    obtain ⟨w, hw, rfl⟩ := of_bind_pure hstep
    obtain ⟨hsorted, hlen, hmem⟩ := ih (keysSorted_assocInsert _ _ hacc) h
    refine ⟨hsorted, ?_, fun e he => ?_⟩
    · have := length_assocInsert_le entry.1 w acc
      rw [length_cons]
      omega
    · obtain he | he := hmem e he
      · obtain rfl | he := mem_assocInsert he
        · exact .inr ⟨not_lt.mp hkey, _, _, hw⟩
        · exact .inl he
      · exact .inr he

theorem returns_foldlM_entries (hsorted : KeysSorted (acc ++ entries))
    (hkeys : ∀ e ∈ entries, (utf8 e.1).length ≤ MAX_MAP_KEY_BYTES)
    (hfixed : ∀ e ∈ entries, ∀ path, Returns limit (f e.2 ty path) (· = e.2)) :
    Returns limit (entries.foldlM (coerceEntry f path ty) acc) (· = acc ++ entries) := by
  induction entries generalizing acc with
  | nil => exact .ok (by simp)
  | cons e entries ih =>
    obtain ⟨hkey, hkeys⟩ := forall_mem_cons.mp hkeys
    obtain ⟨hv, hfixed⟩ := forall_mem_cons.mp hfixed
    have hins : assocInsert e.1 e.2 acc = acc ++ [e] := assocInsert_of_last fun p hp =>
      (pairwise_append.mp hsorted).2.2 p hp e (mem_cons_self ..)
    rw [foldlM_cons, coerceEntry, if_neg (not_lt.mpr hkey)]
    refine ((hv _).bind (R := (· = acc ++ [e])) ?_).bind ?_
    · rintro _ rfl
      exact .ok hins
    · rintro _ rfl
      simpa using ih (by simpa using hsorted : KeysSorted (acc ++ [e] ++ entries)) hkeys hfixed

theorem coerceMap_eq_ok (h : coerceMap f path entries ty = .ok out) :
    KeysSorted out ∧ out.length ≤ MAX_MAP_ENTRIES ∧
      ∀ e ∈ out, (utf8 e.1).length ≤ MAX_MAP_KEY_BYTES ∧ ∃ v path, f v ty path = .ok e.2 := by
  unfold coerceMap at h
  obtain ⟨hlen, h⟩ := of_refused h
  obtain ⟨hsorted, hout, hmem⟩ := foldlM_entries keysSorted_nil h
  refine ⟨hsorted, ?_, fun e he => ?_⟩
  · rw [length_nil] at hout
    omega
  · exact (hmem e he).resolve_left (by simp)

theorem returns_coerceMap (hsorted : KeysSorted entries) (hlen : entries.length ≤ MAX_MAP_ENTRIES)
    (hkeys : ∀ e ∈ entries, (utf8 e.1).length ≤ MAX_MAP_KEY_BYTES)
    (hfixed : ∀ e ∈ entries, ∀ path, Returns limit (f e.2 ty path) (· = e.2)) :
    Returns limit (coerceMap f path entries ty) (· = entries) := by
  rw [coerceMap, if_neg (not_lt.mpr hlen)]
  exact returns_foldlM_entries (by simpa using hsorted) hkeys hfixed

theorem coerceEnum_eq_ok {catalog : Catalog} {name : String} {id : UInt64} {w : Value}
    (h : coerceEnum f catalog path bad name args id variants = .ok w) :
    ∃ variant ∈ variants, ∃ ws, w = .enum variant.name ws variant.id ∧
      Forall₂ (fun ty w => ∃ v path, f v ty path = .ok w) variant.args ws := by
  obtain ⟨variantName, -, h⟩ := of_bind h
  generalize hfound : (if id = 0 then variants.find? fun d => d.name = variantName
    else variants.find? fun d => d.id = id) = found at h
  cases found with
  | none => cases h
  | some variant =>
    have hmem : variant ∈ variants := by
      split at hfound <;> exact mem_of_find?_eq_some hfound
    dsimp only at h
    obtain ⟨hlen, h⟩ := of_refused h
    obtain ⟨ws, hws, rfl⟩ := of_bind_pure h
    exact ⟨variant, hmem, ws, rfl, coerceItems_eq_ok (not_not.mp hlen).symm hws⟩

theorem returns_coerceEnum {catalog : Catalog} {variant : EnumVariantDef}
    (hmem : variant ∈ variants) (hids : (variants.map fun v => v.id).Nodup) (hne : variant.id ≠ 0)
    (hname : Returns limit (unqualifiedVariant catalog bad variant.name variants) fun _ => True)
    (hargs : Forall₂ (fun ty w => ∀ path, Returns limit (f w ty path) (· = w)) variant.args args) :
    Returns limit (coerceEnum f catalog path bad variant.name args variant.id variants)
      (· = .enum variant.name args variant.id) := by
  have hfind : variants.find? (fun d => d.id = variant.id) = some variant :=
    (find?_key_eq_some hids).mpr ⟨hmem, rfl⟩
  refine hname.bind fun _ _ => ?_
  simp only [if_neg hne, hfind, hargs.length_eq, ne_eq, not_true_eq_false, if_false]
  refine (returns_coerceItems hargs).bind ?_
  rintro _ rfl
  exact .ok rfl

end Items

/-! ## Coercion against the judgement -/

section Coercion
variable {catalog : Catalog} {n : ℕ} {ty : ScalarType} {v w : Value} {path : Message}

/-- What coercion returns has the type, as soon as field names are distinct. -/
theorem hasType_of_coerceInner (hc : catalog.Everywhere ScalarType.UniqueFieldNames)
    (hty : ty.Everywhere ScalarType.UniqueFieldNames)
    (h : catalog.coerceInner n v ty path = .ok w) : catalog.HasType n ty w := by
  induction n generalizing ty v w path with
  | zero => cases h
  | succ n ih =>
    cases ty with
    | int => cases v <;> cases h; exact ⟨_, rfl⟩
    | float =>
      cases v with
      | int i =>
        simp only [coerceInner] at h
        split at h
        · rename_i bits hbits
          cases h
          refine ⟨bits, rfl, Float64.finite_of_ofIntExact? ?_ hbits⟩
          have := i.le_toInt
          have := i.toInt_lt
          omega
        · cases h
      | float bits =>
        simp only [coerceInner] at h
        obtain ⟨hfinite, h⟩ := of_required h
        cases h
        exact ⟨_, rfl, Float64.isFinite_normalizeZero hfinite, Float64.normalizeZero_idem bits⟩
      | _ => cases h
    | bool => cases v <;> cases h; exact ⟨_, rfl⟩
    | text => cases v <;> cases h; exact ⟨_, rfl⟩
    | uuid => cases v <;> cases h; exact ⟨_, rfl⟩
    | date => cases v <;> cases h; exact ⟨_, rfl⟩
    | timestamp => cases v <;> cases h; exact ⟨_, rfl⟩
    | duration => cases v <;> cases h; exact ⟨_, rfl⟩
    | bytes => cases v <;> cases h; exact ⟨_, rfl⟩
    | decimal precision scale =>
      cases v with
      | decimal d =>
        obtain ⟨e, he, rfl⟩ := of_bind_pure h
        exact ⟨e, rfl, Decimal.rescale_rescale he⟩
      | _ => cases h
    | ref id =>
      obtain ⟨definition, hdef, raw, -, h⟩ := of_bind₂ h
      obtain ⟨inner, hinner, rfl⟩ := of_bind_pure h
      exact ⟨inner, definition, rfl, hdef, ih (hc id definition hdef) hinner⟩
    | enum variants =>
      cases v with
      | enum name vs id =>
        obtain ⟨variant, hmem, ws, rfl, hws⟩ := coerceEnum_eq_ok h
        refine ⟨variant, hmem, ws, rfl, ?_⟩
        exact forall₂_imp_mem hws fun ty hmemTy w ⟨v, path, hv⟩ => ih (hty.arg hmem hmemTy) hv
      | _ => cases h
    | record columns =>
      cases v with
      | record fields =>
        obtain ⟨out, hout, rfl⟩ := of_bind_pure h
        obtain ⟨hsorted, hknown, hcols⟩ := coerceRecord_eq_ok hty.here hout
        refine ⟨out, rfl, hsorted, hknown, fun c hc => ?_⟩
        obtain ⟨w, hlook, hw⟩ := hcols c hc
        obtain ⟨v, path', hv⟩ := coerceColumn_eq_ok hw
        exact ⟨w, hlook, ih (hty.field hc) hv⟩
      | _ => cases h
    | tuple types =>
      cases v with
      | tuple items =>
        simp only [coerceInner] at h
        obtain ⟨hlen, h⟩ := of_required h
        obtain ⟨ws, hws, rfl⟩ := of_bind_pure h
        exact ⟨ws, rfl, forall₂_imp_mem (coerceItems_eq_ok hlen hws)
          fun ty hmemTy w ⟨v, path, hv⟩ => ih (hty.item hmemTy) hv⟩
      | _ => cases h
    | option item =>
      have hsome : ∀ {x : Value}, (do
          let v ← catalog.coerceInner n x item path
          pure (Value.option (some v))) = Except.ok w →
          catalog.HasType (n + 1) (.option item) w := by
        intro x hx
        obtain ⟨y, hy, rfl⟩ := of_bind_pure hx
        exact .inr ⟨y, rfl, ih hty.option hy⟩
      cases v with
      | enum name args id =>
        match args with
        | [] =>
          simp only [coerceInner] at h
          split at h <;> cases h
          exact .inl rfl
        | [x] =>
          simp only [coerceInner] at h
          obtain ⟨-, h⟩ := of_required h
          exact hsome h
        | _ :: _ :: _ => cases h
      | option o =>
        cases o with
        | none =>
          cases h
          exact .inl rfl
        | some x => exact hsome h
      | _ => cases h
    | list item =>
      cases v with
      | list items =>
        obtain ⟨ws, hws, rfl⟩ := of_bind_pure h
        refine ⟨ws, rfl, fun w hw => ?_⟩
        obtain ⟨v, path', hv⟩ := coerceEach_eq_ok hws w hw
        exact ih hty.list hv
      | _ => cases h
    | map item =>
      cases v with
      | map entries =>
        obtain ⟨ws, hws, rfl⟩ := of_bind_pure h
        obtain ⟨hsorted, hlen, hmem⟩ := coerceMap_eq_ok hws
        refine ⟨ws, rfl, hsorted, hlen, fun e he => ?_⟩
        obtain ⟨hkey, v, path', hv⟩ := hmem e he
        exact ⟨hkey, ih hty.map hv⟩
      | _ => cases h
    | named name => cases h

/-- **What coercion returns has the type.** -/
theorem coerceInner_hasType (hc : catalog.WellFormed) (hty : ty.WellFormed)
    (h : catalog.coerceInner n v ty path = .ok w) : catalog.HasType n ty w :=
  hasType_of_coerceInner hc.uniqueFieldNames hty.uniqueFieldNames h

theorem WellTyped.hasType (h : catalog.WellTyped ty v) (hc : catalog.WellFormed)
    (hty : ty.WellFormed) : catalog.HasType MAX_DEPTH ty v :=
  coerceInner_hasType hc hty h

/-- Coercion reads no variant name as qualified, or the error it may end with is
tolerated. -/
def ReadsPlain (catalog : Catalog) (limit : Error → Prop) (ty : ScalarType) : Prop :=
  catalog.Everywhere ScalarType.PlainVariants ∧ ty.Everywhere ScalarType.PlainVariants ∨
    ∀ e : Error, e.code = .E_TYPE → limit e

variable {limit : Error → Prop}

theorem ReadsPlain.part {part : ScalarType} (h : catalog.ReadsPlain limit ty)
    (hpart : ty.Everywhere ScalarType.PlainVariants → part.Everywhere ScalarType.PlainVariants) :
    catalog.ReadsPlain limit part := h.imp_left fun hp => ⟨hp.1, hpart hp.2⟩

theorem ReadsPlain.variant {variants : List EnumVariantDef} {v : EnumVariantDef} (hv : v ∈ variants)
    (h : catalog.ReadsPlain limit (.enum variants)) :
    Returns limit (unqualifiedVariant catalog ⟨.E_TYPE, path ++ ": expected " ++
      Message.type (.enum variants), none⟩ v.name variants) fun _ => True := by
  obtain ⟨-, hp⟩ | hlimit := h
  · rw [unqualifiedVariant, hp.here v hv]
    exact .ok trivial
  · unfold unqualifiedVariant
    split
    · exact .ok trivial
    · split
      · split
        · exact .ok trivial
        · exact .error (hlimit _ rfl)
      · exact .error (hlimit _ rfl)

/-- **A value of the type is its own coercion**, up to variant names that read as
qualified. -/
theorem HasType.returns_coerceInner (hc : catalog.WellFormed) (hty : ty.WellFormed)
    (hp : catalog.ReadsPlain limit ty) (h : catalog.HasType n ty v) (path : Message) :
    Returns limit (catalog.coerceInner n v ty path) (· = v) := by
  induction n generalizing ty v path with
  | zero => cases h
  | succ n ih =>
    cases hty with
    | int => obtain ⟨_, rfl⟩ := h; exact .ok rfl
    | float =>
      obtain ⟨bits, rfl, hfinite, hzero⟩ := h
      simp only [coerceInner, hfinite, if_true, hzero]
      exact .ok rfl
    | bool => obtain ⟨_, rfl⟩ := h; exact .ok rfl
    | text => obtain ⟨_, rfl⟩ := h; exact .ok rfl
    | uuid => obtain ⟨_, rfl⟩ := h; exact .ok rfl
    | date => obtain ⟨_, rfl⟩ := h; exact .ok rfl
    | timestamp => obtain ⟨_, rfl⟩ := h; exact .ok rfl
    | duration => obtain ⟨_, rfl⟩ := h; exact .ok rfl
    | bytes => obtain ⟨_, rfl⟩ := h; exact .ok rfl
    | decimal precision scale =>
      obtain ⟨d, rfl, hd⟩ := h
      rw [coerceInner, hd]
      exact .ok rfl
    | ref id =>
      obtain ⟨inner, definition, rfl, hdef, hinner⟩ := h
      simp only [coerceInner, hdef, refBody, if_true, pure_eq_ok, ok_bind]
      refine (ih (hc id definition hdef) (hp.imp_left fun hp => ⟨hp.1, hp.1 id definition hdef⟩)
        hinner path).bind ?_
      rintro _ rfl
      exact .ok rfl
    | enum ids nonzero args =>
      obtain ⟨variant, hmem, ws, rfl, hws⟩ := h
      exact returns_coerceEnum hmem ids (nonzero variant hmem) (hp.variant hmem)
        (forall₂_imp_mem hws fun ty hty w hw =>
          ih (args variant hmem ty hty) (hp.part fun h => h.arg hmem hty) hw)
    | record names types =>
      obtain ⟨fields, rfl, hsorted, hknown, hcols⟩ := h
      refine (returns_coerceRecord names hsorted hknown fun c hc => ?_).bind ?_
      · obtain ⟨v, hlook, hv⟩ := hcols c hc
        exact ⟨v, hlook, ih (types c hc) (hp.part fun h => h.field hc) hv⟩
      · rintro _ rfl
        exact .ok rfl
    | tuple all =>
      obtain ⟨items, rfl, hitems⟩ := h
      simp only [coerceInner, hitems.length_eq, if_true]
      refine (returns_coerceItems (forall₂_imp_mem hitems fun ty hty w hw =>
        ih (all ty hty) (hp.part fun h => h.item hty) hw)).bind ?_
      rintro _ rfl
      exact .ok rfl
    | option inner =>
      obtain rfl | ⟨x, rfl, hx⟩ := h
      · exact .ok rfl
      · refine (ih inner (hp.part fun h => h.option) hx path).bind ?_
        rintro _ rfl
        exact .ok rfl
    | list inner =>
      obtain ⟨items, rfl, hitems⟩ := h
      refine (returns_coerceEach fun w hw =>
        ih inner (hp.part fun h => h.list) (hitems w hw)).bind ?_
      rintro _ rfl
      exact .ok rfl
    | map inner =>
      obtain ⟨entries, rfl, hsorted, hlen, hmem⟩ := h
      refine (returns_coerceMap hsorted hlen (fun e he => (hmem e he).1) fun e he =>
        ih inner (hp.part fun h => h.map) (hmem e he).2).bind ?_
      rintro _ rfl
      exact .ok rfl

/-- What coercion makes of a value of the type is that value. -/
theorem HasType.eq_of_coerceInner (hc : catalog.WellFormed) (hty : ty.WellFormed)
    (h : catalog.HasType n ty v) (hw : catalog.coerceInner n v ty path = .ok w) : w = v := by
  have hany : catalog.ReadsPlain (fun _ => True) ty := .inr fun _ _ => trivial
  exact (h.returns_coerceInner hc hty hany path).eq_of_ok hw

section Plain
variable (hc : catalog.WellFormed) (hplain : catalog.Everywhere ScalarType.PlainVariants)
  (hty : ty.WellFormed) (hp : ty.Everywhere ScalarType.PlainVariants)
include hc hplain hty hp

theorem HasType.coerceInner_eq (h : catalog.HasType n ty v) (path : Message) :
    catalog.coerceInner n v ty path = .ok v := by
  obtain ⟨_, hv, rfl⟩ := (h.returns_coerceInner hc hty (.inl ⟨hplain, hp⟩) path).exists_ok
  exact hv

/-- **Coercion is a projection**: a coerced value is its own coercion, whatever
path is given for errors. -/
theorem coerce_coerce (h : catalog.coerce v ty path = .ok w) (path' : Message) :
    catalog.coerce w ty path' = .ok w :=
  (coerceInner_hasType hc hty h).coerceInner_eq hc hplain hty hp path'

theorem wellTyped_iff : catalog.WellTyped ty v ↔ catalog.HasType MAX_DEPTH ty v :=
  ⟨fun h => coerceInner_hasType hc hty h, fun h => h.coerceInner_eq hc hplain hty hp _⟩

end Plain

end Coercion
end Catalog
end UnionId
