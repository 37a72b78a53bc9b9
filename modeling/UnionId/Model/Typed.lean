import UnionId.Lib.Limited
import UnionId.Model.Define

/-!
# Typed values of any depth

`Typed catalog ty v` drops the bound on the nesting depth from `HasType`. Typed
values are described by the structure of their type, also through named types: the
value below the nominal wrappers is typed by the structural type. A declared type is
one whose references, decimals and names have been checked; every such type without
constructors has a value.
-/
namespace UnionId

open List

namespace Catalog

open Lib

variable {catalog : Catalog} {n : ℕ} {ty u : ScalarType} {v : Value} {columns : List Column}

/-- More depth does no harm. -/
theorem HasType.succ (h : catalog.HasType n ty v) : catalog.HasType (n + 1) ty v := by
  induction n generalizing ty v with
  | zero => cases h
  | succ n ih =>
    cases ty with
    | ref id =>
      obtain ⟨inner, d, hv, hd, hinner⟩ := h
      exact ⟨inner, d, hv, hd, ih hinner⟩
    | enum variants =>
      obtain ⟨variant, hmem, args, hv, hargs⟩ := h
      exact ⟨variant, hmem, args, hv, hargs.imp fun _ _ => ih⟩
    | record columns =>
      obtain ⟨fields, hv, hsorted, hknown, hcols⟩ := h
      refine ⟨fields, hv, hsorted, hknown, fun c hc => ?_⟩
      obtain ⟨w, hw, htyped⟩ := hcols c hc
      exact ⟨w, hw, ih htyped⟩
    | tuple types =>
      obtain ⟨items, hv, hitems⟩ := h
      exact ⟨items, hv, hitems.imp fun _ _ => ih⟩
    | option ty => exact h.imp id fun ⟨w, hw, htyped⟩ => ⟨w, hw, ih htyped⟩
    | list ty =>
      obtain ⟨items, hv, hitems⟩ := h
      exact ⟨items, hv, fun w hw => ih (hitems w hw)⟩
    | map ty =>
      obtain ⟨entries, hv, hsorted, hlen, hentries⟩ := h
      exact ⟨entries, hv, hsorted, hlen, fun e he => ⟨(hentries e he).1, ih (hentries e he).2⟩⟩
    | _ => exact h

variable {m : ℕ} {types : List ScalarType} {vs : List Value}

theorem HasType.mono (h : catalog.HasType n ty v) (hnm : n ≤ m) : catalog.HasType m ty v := by
  induction hnm with
  | refl => exact h
  | step _ ih => exact ih.succ

/-- A canonical value of a type, of any depth. -/
def Typed (catalog : Catalog) (ty : ScalarType) (v : Value) : Prop := ∃ n, catalog.HasType n ty v

theorem exists_depth
    (h : Forall₂ catalog.Typed types vs) : ∃ n, Forall₂ (catalog.HasType n) types vs := by
  induction h with
  | nil => exact ⟨0, .nil⟩
  | cons hv _ ih =>
    obtain ⟨n, hn⟩ := hv
    obtain ⟨m, hm⟩ := ih
    exact ⟨max n m, .cons (hn.mono (le_max_left n m))
      (hm.imp fun _ _ h => h.mono (le_max_right n m))⟩

/-! ## By the structure of the type -/

theorem typed_enum {variants : List EnumVariantDef} :
    catalog.Typed (.enum variants) v ↔ ∃ variant ∈ variants, ∃ args,
      v = .enum variant.name args variant.id ∧ Forall₂ catalog.Typed variant.args args := by
  constructor
  · rintro ⟨_ | n, h⟩
    · cases h
    · obtain ⟨variant, hmem, args, hv, hargs⟩ := h
      exact ⟨variant, hmem, args, hv, hargs.imp fun _ _ h => ⟨n, h⟩⟩
  · rintro ⟨variant, hmem, args, hv, hargs⟩
    obtain ⟨n, hn⟩ := exists_depth hargs
    exact ⟨n + 1, variant, hmem, args, hv, hn⟩

theorem typed_tuple : catalog.Typed (.tuple types) v ↔ ∃ items, v = .tuple items ∧
      Forall₂ catalog.Typed types items := by
  constructor
  · rintro ⟨_ | n, h⟩
    · cases h
    · obtain ⟨items, hv, hitems⟩ := h
      exact ⟨items, hv, hitems.imp fun _ _ h => ⟨n, h⟩⟩
  · rintro ⟨items, hv, hitems⟩
    obtain ⟨n, hn⟩ := exists_depth hitems
    exact ⟨n + 1, items, hv, hn⟩

theorem typed_option : catalog.Typed (.option ty) v ↔ v = .option none ∨
      ∃ w, v = .option (some w) ∧ catalog.Typed ty w := by
  constructor
  · rintro ⟨_ | n, h⟩
    · cases h
    · exact h.imp id fun ⟨w, hw, htyped⟩ => ⟨w, hw, n, htyped⟩
  · rintro (hv | ⟨w, hv, n, hn⟩)
    · exact ⟨1, .inl hv⟩
    · exact ⟨n + 1, .inr ⟨w, hv, hn⟩⟩

theorem typed_ref {id : UInt64} :
    catalog.Typed (.ref id) v ↔ ∃ inner d, v = .named id inner ∧ catalog.definition id = .ok d ∧
      catalog.Typed d.ty inner := by
  constructor
  · rintro ⟨_ | n, h⟩
    · cases h
    · obtain ⟨inner, d, hv, hd, hinner⟩ := h
      exact ⟨inner, d, hv, hd, n, hinner⟩
  · rintro ⟨inner, d, hv, hd, n, hinner⟩
    exact ⟨n + 1, inner, d, hv, hd, hinner⟩

/-- The fields that a record type declares, and no others. -/
def TypedFields (catalog : Catalog) (columns : List Column) (fields : Fields) : Prop :=
  KeysSorted fields ∧ (∀ p ∈ fields, ∃ c ∈ columns, c.name = p.1) ∧
    ∀ c ∈ columns, ∃ v, fields.lookup c.name = some v ∧ catalog.Typed c.ty v

theorem exists_column_depth {fields : Fields}
    (h : ∀ c ∈ columns, ∃ v, fields.lookup c.name = some v ∧ catalog.Typed c.ty v) :
    ∃ n, ∀ c ∈ columns, ∃ v, fields.lookup c.name = some v ∧ catalog.HasType n c.ty v := by
  induction columns with
  | nil => exact ⟨0, by simp⟩
  | cons c columns ih =>
    obtain ⟨⟨v, hv, n, hn⟩, hrest⟩ := forall_mem_cons.mp h
    obtain ⟨m, hm⟩ := ih hrest
    refine ⟨max n m, forall_mem_cons.mpr ⟨⟨v, hv, hn.mono (le_max_left n m)⟩, fun c' hc' => ?_⟩⟩
    obtain ⟨w, hw, htyped⟩ := hm c' hc'
    exact ⟨w, hw, htyped.mono (le_max_right n m)⟩

theorem typed_record : catalog.Typed (.record columns) v ↔ ∃ fields, v = .record fields ∧
      catalog.TypedFields columns fields := by
  constructor
  · rintro ⟨_ | n, h⟩
    · cases h
    · obtain ⟨fields, hv, hsorted, hknown, hcols⟩ := h
      refine ⟨fields, hv, hsorted, hknown, fun c hc => ?_⟩
      obtain ⟨w, hw, htyped⟩ := hcols c hc
      exact ⟨w, hw, n, htyped⟩
  · rintro ⟨fields, hv, hsorted, hknown, hcols⟩
    obtain ⟨n, hn⟩ := exists_column_depth hcols
    exact ⟨n + 1, fields, hv, hsorted, hknown, hn⟩

/-! ## Through named types -/

/-- Typed values under distinct names form a record. -/
theorem exists_fields (hnames : (columns.map fun c => c.name).Nodup)
    (hvs : Forall₂ catalog.Typed (columns.map fun c => c.ty) vs) :
    ∃ fields : Fields, catalog.TypedFields columns fields ∧
      (columns.map fun c => c.name).mapM (fun name => fields.lookup name) = some vs := by
  induction columns generalizing vs with
  | nil =>
    obtain rfl := forall₂_nil_left_iff.mp hvs
    exact ⟨[], ⟨keysSorted_nil, by simp, by simp⟩, rfl⟩
  | cons c columns ih =>
    obtain ⟨v, rest, hv, hrest, rfl⟩ := forall₂_cons_left_iff.mp hvs
    rw [map_cons, nodup_cons] at hnames
    obtain ⟨fields, ⟨hsorted, hknown, htyped⟩, hlookup⟩ := ih hnames.2 hrest
    have hkeep : ∀ name ∈ columns.map fun c => c.name,
        (assocInsert c.name v fields).lookup name = fields.lookup name := by
      intro name hname
      have hne : name ≠ c.name := fun heq => hnames.1 (heq ▸ hname)
      rw [lookup_assocInsert, if_neg hne]
    refine ⟨assocInsert c.name v fields, ⟨keysSorted_assocInsert _ _ hsorted, fun p hp => ?_,
      forall_mem_cons.mpr ⟨⟨v, by simp, hv⟩, fun c' hc' => ?_⟩⟩, ?_⟩
    · obtain rfl | hp := mem_assocInsert hp
      · exact ⟨c, mem_cons_self .., rfl⟩
      · obtain ⟨c', hc', hname⟩ := hknown p hp
        exact ⟨c', mem_cons_of_mem _ hc', hname⟩
    · rw [hkeep c'.name (mem_map_of_mem hc')]
      exact htyped c' hc'
    · refine mapM_eq_some_iff.mpr (.cons (by simp) ?_)
      have hrow := (forall₂_and_left _ _).mpr ⟨hkeep, mapM_eq_some_iff.mp hlookup⟩
      exact hrow.imp fun name w h => h.1.trans h.2

/-- Only values of a named type carry a nominal wrapper. -/
theorem Typed.unwrapped_eq (h : catalog.Typed ty v)
    (hty : ∀ id, ty ≠ .ref id) : v.unwrapped = v := by
  obtain ⟨_ | n, h⟩ := h
  · cases h
  · cases ty with
    | ref id => exact absurd rfl (hty id)
    | enum variants =>
      obtain ⟨_, _, _, rfl, _⟩ := h
      rfl
    | option ty =>
      obtain rfl | ⟨_, rfl, _⟩ := h <;> rfl
    | named name => cases h
    | float =>
      obtain ⟨_, rfl, _⟩ := h
      rfl
    | int | bool | text | uuid | date | timestamp | duration | bytes =>
      obtain ⟨_, rfl⟩ := h
      rfl
    | decimal | record | tuple | list | map =>
      obtain ⟨_, rfl, _⟩ := h
      rfl

theorem underlyingWithin_ne_ref
    (h : catalog.underlyingWithin n ty = .ok u) (id : UInt64) : u ≠ .ref id := by
  induction n generalizing ty with
  | zero => simp [underlyingWithin] at h
  | succ n ih =>
    cases ty with
    | ref _ =>
      obtain ⟨d, -, h⟩ := of_bind h
      exact ih h
    | _ => cases h; simp

theorem underlyingWithin_typed (h : catalog.underlyingWithin n ty = .ok u) :
    (∀ v, catalog.Typed ty v → catalog.Typed u v.unwrapped) ∧
      ∀ w, catalog.Typed u w → ∃ v, catalog.Typed ty v ∧ v.unwrapped = w := by
  induction n generalizing ty with
  | zero => simp [underlyingWithin] at h
  | succ n ih =>
    cases ty with
    | ref id =>
      obtain ⟨d, hd, h⟩ := of_bind h
      obtain ⟨hdown, hup⟩ := ih h
      constructor
      · intro v hv
        obtain ⟨inner, d', rfl, hd', hinner⟩ := typed_ref.mp hv
        obtain rfl : d' = d := Except.ok.inj (hd'.symm.trans hd)
        exact hdown inner hinner
      · intro w hw
        obtain ⟨inner, hinner, rfl⟩ := hup w hw
        exact ⟨.named id inner, typed_ref.mpr ⟨inner, d, rfl, hd, hinner⟩, rfl⟩
    | _ =>
      cases h
      refine ⟨fun v hv => ?_, fun w hw => ⟨w, hw, hw.unwrapped_eq (by simp)⟩⟩
      rwa [hv.unwrapped_eq (by simp)]

/-- **The values of a type are those of its structural type under wrappers.** -/
theorem underlying_typed (h : catalog.underlying ty = .ok u) :
    (∀ v, catalog.Typed ty v → catalog.Typed u v.unwrapped) ∧
      ∀ w, catalog.Typed u w → ∃ v, catalog.Typed ty v ∧ v.unwrapped = w :=
  underlyingWithin_typed h

/-! ## Declared types -/

/-- What the checks on a declaration establish at one node of a type. -/
def IsDeclared (catalog : Catalog) : ScalarType → Prop
  | .record columns => (columns.map fun c => c.name).Nodup
  | .enum variants => (variants.map fun v => v.id).Nodup
  | .ref id => ∃ d, catalog.definition id = .ok d
  | .decimal precision scale => validateDecimalType precision scale = .ok ()
  | .named _ => False
  | _ => True

theorem declared_of_validate (hty : ty.Everywhere ScalarType.Distinct)
    (h : catalog.validateTypeReferences n ty = .ok ()) : ty.Everywhere catalog.IsDeclared := by
  induction n generalizing ty with
  | zero => cases h
  | succ n ih =>
    cases ty with
    | decimal precision scale => exact .leaf h rfl
    | ref id =>
      obtain ⟨d, hd, -⟩ := of_bind h
      exact .leaf ⟨d, hd⟩ rfl
    | enum variants =>
      refine .node hty.here fun part hpart => ?_
      obtain ⟨v, hv, hpart⟩ := mem_flatMap.mp hpart
      exact ih (hty.arg hv hpart) (forM_eq_ok_iff.mp (forM_eq_ok_iff.mp h v hv) part hpart)
    | record columns =>
      refine .node hty.here fun part hpart => ?_
      obtain ⟨c, hc, rfl⟩ := mem_map.mp hpart
      exact ih (hty.field hc) (forM_eq_ok_iff.mp h c hc)
    | tuple types =>
      exact .node trivial fun part hpart => ih (hty.item hpart) (forM_eq_ok_iff.mp h part hpart)
    | option inner =>
      refine .node trivial fun part hpart => ?_
      obtain rfl := mem_singleton.mp hpart
      exact ih hty.option h
    | list inner =>
      refine .node trivial fun part hpart => ?_
      obtain rfl := mem_singleton.mp hpart
      exact ih hty.list h
    | map inner =>
      refine .node trivial fun part hpart => ?_
      obtain rfl := mem_singleton.mp hpart
      exact ih hty.map h
    | named name => cases h
    | _ => exact .leaf trivial rfl

/-- All registered definitions have been checked. -/
def Declared (catalog : Catalog) : Prop := catalog.Everywhere catalog.IsDeclared

theorem declared_of_validateFiniteTypes (hc : catalog.Everywhere ScalarType.Distinct)
    (h : catalog.validateFiniteTypes = .ok ()) : catalog.Declared := by
  intro id d hd
  obtain ⟨_, hrefs, -⟩ := of_bind h
  exact declared_of_validate (hc id d hd)
    (forM_eq_ok_iff.mp hrefs d (mem_valuesOf.mpr (definition_mem hd).2))

/-- What holds everywhere in a type and in the catalog holds in the structural type. -/
theorem underlyingWithin_everywhere {P : ScalarType → Prop} (hc : catalog.Everywhere P)
    (hty : ty.Everywhere P) (h : catalog.underlyingWithin n ty = .ok u) :
    u.Everywhere P := by
  induction n generalizing ty with
  | zero => simp [underlyingWithin] at h
  | succ n ih =>
    cases ty with
    | ref id =>
      obtain ⟨d, hd, h⟩ := of_bind h
      exact ih (hc id d hd) h
    | _ =>
      cases h
      exact hty

/-- The structural type of a declared type is found, unless the chain of named types
is too long. -/
theorem underlyingWithin_returns (hc : catalog.Declared) (hty : ty.Everywhere catalog.IsDeclared) :
    (∃ u, catalog.underlyingWithin n ty = .ok u) ∨
      ∃ e, catalog.underlyingWithin n ty = .error e ∧ e.code = .E_LIMIT := by
  induction n generalizing ty with
  | zero => exact .inr ⟨_, rfl, rfl⟩
  | succ n ih =>
    cases ty with
    | ref id =>
      obtain ⟨d, hd⟩ := hty.here
      simpa only [underlyingWithin, hd, ok_bind] using ih (hc id d hd)
    | _ => exact .inl ⟨_, rfl⟩

theorem rescale_zero {precision scale : ℕ} (h : validateDecimalType precision scale = .ok ()) :
    ∃ d : Decimal, d.rescale precision scale = .ok d := by
  refine ⟨⟨0, scale, by decide⟩, ?_⟩
  have hprecision : precision ≤ 38 := by
    unfold validateDecimalType at h
    split at h
    · cases h
    · omega
  have hpos : 0 < 10 ^ precision := by positivity
  simp [Decimal.rescale, Decimal.rescaleCoefficient, Decimal.new, h, fitsI128, hprecision, hpos,
    pure_eq_ok, ok_bind]

/-- A type with a value that holds no other. -/
def Immediate : ScalarType → Prop
  | .tuple _ | .record _ | .enum _ | .ref _ | .named _ => False
  | _ => True

theorem exists_typed_immediate (hty : catalog.IsDeclared ty) (h : Immediate ty) :
    ∃ v, catalog.Typed ty v := by
  cases ty with
  | int => exact ⟨.int 0, 1, 0, rfl⟩
  | float => exact ⟨.float 0, 1, 0, rfl, by decide, by decide⟩
  | bool => exact ⟨.bool true, 1, true, rfl⟩
  | text => exact ⟨.text "", 1, "", rfl⟩
  | uuid => exact ⟨.uuid ⟨replicate 16 0, rfl⟩, 1, _, rfl⟩
  | date => exact ⟨.date ⟨0, by decide⟩, 1, _, rfl⟩
  | timestamp => exact ⟨.timestamp ⟨0, by decide⟩, 1, _, rfl⟩
  | duration => exact ⟨.duration ⟨0⟩, 1, _, rfl⟩
  | bytes => exact ⟨.bytes ⟨[], Nat.zero_le _⟩, 1, _, rfl⟩
  | decimal precision scale =>
    obtain ⟨d, hd⟩ := rescale_zero hty
    exact ⟨.decimal d, 1, d, rfl, hd⟩
  | option ty => exact ⟨.option none, 1, .inl rfl⟩
  | list ty => exact ⟨.list [], 1, [], rfl, by simp⟩
  | map ty => exact ⟨.map [], 1, [], rfl, keysSorted_nil, by decide, by simp⟩
  | _ => exact h.elim

end Catalog
end UnionId
