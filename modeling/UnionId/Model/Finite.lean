import UnionId.Lib.Reach
import UnionId.Model.Typed

/-!
# Admission of recursive types

A registered catalog passes three checks: every definition is complete, named types
recur only through themselves, and every named type has a value. The first is a walk
over each definition, the second a depth-first search, the third a saturation.

## Main results

* `visitCycles_sound`, `visitCycles_complete` — the search finds exactly the mutual cycles.
* `mem_finiteTypes` — saturation computes the least fixed point.
* `validateFiniteTypes_exact` — what is admitted, and that it has values.
-/
namespace UnionId

open Lib Std Relation List

/-- A type whose parts nest at most `n` deep. -/
def ScalarType.Within : ℕ → ScalarType → Prop
  | 0, _ => False
  | n + 1, ty => ∀ part ∈ ty.parts, part.Within n

namespace Catalog

variable {catalog : Catalog}

/-! ## Complete definitions -/

/-- What one node of a type must satisfy: its reference is known, its decimal type valid. -/
def Complete (catalog : Catalog) : ScalarType → Prop
  | .ref id => ∃ d, catalog.definition id = .ok d
  | .decimal precision scale => validateDecimalType precision scale = .ok ()
  | .named _ => False
  | _ => True

variable {n : ℕ} {ty : ScalarType} {finite : List UInt64} {types : List ScalarType} {id : UInt64}

/-- The walk over a definition accepts exactly the complete ones that are not too deep. -/
theorem validateTypeReferences_iff :
    catalog.validateTypeReferences n ty = .ok () ↔ ty.Everywhere catalog.Complete ∧
      ty.Within n := by
  induction n generalizing ty with
  | zero =>
    constructor
    · intro h
      cases h
    · rintro ⟨-, h⟩
      cases h
  | succ n ih =>
    have hleaf : ∀ {ty : ScalarType}, catalog.Complete ty → ty.parts = [] →
        ty.Everywhere catalog.Complete ∧ ty.Within (n + 1) := by
      intro ty hty hparts
      refine ⟨.leaf hty hparts, fun part hpart => ?_⟩
      rw [hparts] at hpart
      cases hpart
    have hnode : ∀ {ty : ScalarType}, catalog.Complete ty →
        ((∀ part ∈ ty.parts, catalog.validateTypeReferences n part = .ok ()) ↔
          ty.Everywhere catalog.Complete ∧ ty.Within (n + 1)) := by
      intro ty hty
      constructor
      · intro h
        exact ⟨.node hty fun part hpart => (ih.mp (h part hpart)).1,
          fun part hpart => (ih.mp (h part hpart)).2⟩
      · rintro ⟨⟨-, hbelow⟩, hwithin⟩ part hpart
        exact ih.mpr ⟨hbelow part hpart, hwithin part hpart⟩
    cases ty with
    | decimal precision scale =>
      exact ⟨fun h => hleaf h rfl, fun h => h.1.here⟩
    | ref id =>
      refine ⟨fun h => ?_, fun h => ?_⟩
      · obtain ⟨d, hd, -⟩ := of_bind h
        exact hleaf ⟨d, hd⟩ rfl
      · obtain ⟨d, hd⟩ := h.1.here
        rw [validateTypeReferences, hd, ok_bind]
        rfl
    | named name =>
      refine ⟨fun h => ?_, fun h => h.1.here.elim⟩
      cases h
    | record columns =>
      refine Iff.trans ?_ (hnode trivial)
      rw [validateTypeReferences, forM_eq_ok_iff]
      simp [ScalarType.parts]
    | enum variants =>
      refine Iff.trans ?_ (hnode trivial)
      rw [validateTypeReferences, forM_eq_ok_iff]
      simp only [forM_eq_ok_iff, ScalarType.parts, mem_flatMap]
      constructor
      · rintro h part ⟨v, hv, hpart⟩
        exact h v hv part hpart
      · exact fun h v hv part hpart => h part ⟨v, hv, hpart⟩
    | tuple items =>
      refine Iff.trans ?_ (hnode trivial)
      rw [validateTypeReferences, forM_eq_ok_iff]
      rfl
    | option inner | list inner | map inner =>
      refine Iff.trans ?_ (hnode trivial)
      simp [validateTypeReferences, ScalarType.parts]
    | _ => exact ⟨fun _ => hleaf trivial rfl, fun _ => rfl⟩

/-! ## Types with a value -/

/-- The types with a finite value: a product needs values of all parts, a sum of one
variant, a named type of its body. -/
inductive HasValue (catalog : Catalog) : ScalarType → Prop
  | int : HasValue catalog .int
  | float : HasValue catalog .float
  | bool : HasValue catalog .bool
  | text : HasValue catalog .text
  | uuid : HasValue catalog .uuid
  | date : HasValue catalog .date
  | timestamp : HasValue catalog .timestamp
  | duration : HasValue catalog .duration
  | decimal (precision scale : ℕ) : HasValue catalog (.decimal precision scale)
  | bytes : HasValue catalog .bytes
  | option (ty : ScalarType) : HasValue catalog (.option ty)
  | list (ty : ScalarType) : HasValue catalog (.list ty)
  | map (ty : ScalarType) : HasValue catalog (.map ty)
  | tuple {types : List ScalarType} (all : ∀ ty ∈ types, HasValue catalog ty) :
      HasValue catalog (.tuple types)
  | record {columns : List Column} (all : ∀ c ∈ columns, HasValue catalog c.ty) :
      HasValue catalog (.record columns)
  | enum {variants : List EnumVariantDef} {v : EnumVariantDef} (mem : v ∈ variants)
      (all : ∀ ty ∈ v.args, HasValue catalog ty) : HasValue catalog (.enum variants)
  | ref {d : TypeDefinition} (mem : d ∈ valuesOf catalog.types) (body : HasValue catalog d.ty) :
      HasValue catalog (.ref d.id)

theorem finiteItems_iff :
    finiteItems finite types = true ↔ ∀ ty ∈ types, ty.isFinite finite = true := by
  induction types with
  | nil => simp [finiteItems]
  | cons ty types ih => simp [finiteItems, ih]

variable {columns : List Column} {variants : List EnumVariantDef} {d : TypeDefinition}
  {visiting visited : List UInt64}

theorem finiteColumns_iff :
    finiteColumns finite columns = true ↔ ∀ c ∈ columns, c.ty.isFinite finite = true := by
  induction columns with
  | nil => simp [finiteColumns]
  | cons c columns ih =>
    change (c.ty.isFinite finite && finiteColumns finite columns) = true ↔ _
    simp [ih]

theorem finiteVariant_iff : finiteVariant finite variants = true ↔
      ∃ v ∈ variants, ∀ ty ∈ v.args, ty.isFinite finite = true := by
  induction variants with
  | nil => simp [finiteVariant]
  | cons v variants ih =>
    change (finiteItems finite v.args || finiteVariant finite variants) = true ↔ _
    simp [ih, finiteItems_iff]

/-- Types with a value, given named types with one. -/
theorem hasValue_of_isFinite (hfinite : ∀ id ∈ finite, catalog.HasValue (.ref id)) :
    ∀ ty : ScalarType, ty.isFinite finite = true → catalog.HasValue ty
  | .int, _ => .int
  | .float, _ => .float
  | .bool, _ => .bool
  | .text, _ => .text
  | .uuid, _ => .uuid
  | .date, _ => .date
  | .timestamp, _ => .timestamp
  | .duration, _ => .duration
  | .decimal precision scale, _ => .decimal precision scale
  | .bytes, _ => .bytes
  | .option ty, _ => .option ty
  | .list ty, _ => .list ty
  | .map ty, _ => .map ty
  | .ref id, h => hfinite id (by simpa [ScalarType.isFinite] using h)
  | .tuple types, h => by
    have hall := finiteItems_iff.mp h
    exact .tuple fun ty hty => hasValue_of_isFinite hfinite ty (hall ty hty)
  | .record columns, h => by
    have hall := finiteColumns_iff.mp h
    exact .record fun c hc => hasValue_of_isFinite hfinite c.ty (hall c hc)
  | .enum variants, h => by
    obtain ⟨v, hv, hall⟩ := finiteVariant_iff.mp h
    exact .enum hv fun ty hty => hasValue_of_isFinite hfinite ty (hall ty hty)
termination_by ty => ty
decreasing_by
  all_goals simp_wf
  · have hmem := sizeOf_lt_of_mem hty
    omega
  · have hmem := sizeOf_lt_of_mem hc
    have hpart : sizeOf c.ty < sizeOf c := by cases c; simp; omega
    omega
  · have hmem := sizeOf_lt_of_mem hty
    have hmem' := sizeOf_lt_of_mem hv
    have hpart : sizeOf v.args < sizeOf v := by cases v; simp; omega
    omega

/-- At a fixed point of the pass, every type with a value is recognised. -/
theorem isFinite_of_hasValue
    (hfixed : ∀ d ∈ valuesOf catalog.types, d.ty.isFinite finite = true → d.id ∈ finite)
    (h : catalog.HasValue ty) : ty.isFinite finite = true := by
  induction h with
  | tuple _ ih => exact finiteItems_iff.mpr ih
  | record _ ih => exact finiteColumns_iff.mpr ih
  | enum hv _ ih => exact finiteVariant_iff.mpr ⟨_, hv, ih⟩
  | ref hd _ ih => simpa [ScalarType.isFinite] using hfixed _ hd ih
  | _ => rfl

/-- The named types found so far: known ones with a value, each once. -/
structure Found (catalog : Catalog) (finite : List UInt64) : Prop where
  nodup : finite.Nodup
  known : ∀ id ∈ finite, id ∈ (valuesOf catalog.types).map fun d => d.id
  inhabited : ∀ id ∈ finite, catalog.HasValue (.ref id)

section Pass
variable {definitions : List TypeDefinition} {finite : List UInt64}

theorem finitePass_cons (d : TypeDefinition) :
    finitePass (d :: definitions) finite = finitePass definitions
      (if d.id ∈ finite then finite else if d.ty.isFinite finite then d.id :: finite else finite) :=
  rfl

theorem suffix_finitePass : finite <:+ finitePass definitions finite := by
  induction definitions generalizing finite with
  | nil => exact suffix_rfl
  | cons d definitions ih =>
    rw [finitePass_cons]
    refine List.IsSuffix.trans ?_ ih
    split
    · exact suffix_rfl
    · split
      · exact suffix_cons _ _
      · exact suffix_rfl

theorem finitePass_found (hdefs : ∀ d ∈ definitions, d ∈ valuesOf catalog.types)
    (h : Found catalog finite) : Found catalog (finitePass definitions finite) := by
  induction definitions generalizing finite with
  | nil => exact h
  | cons d definitions ih =>
    obtain ⟨hd, hdefs⟩ := forall_mem_cons.mp hdefs
    rw [finitePass_cons]
    apply ih hdefs
    split
    · exact h
    next hnew =>
    split
    · next hfinite =>
      have hvalue : catalog.HasValue (.ref d.id) :=
        .ref hd (hasValue_of_isFinite h.inhabited d.ty hfinite)
      exact ⟨nodup_cons.mpr ⟨hnew, h.nodup⟩,
        forall_mem_cons.mpr ⟨mem_map_of_mem hd, h.known⟩,
        forall_mem_cons.mpr ⟨hvalue, h.inhabited⟩⟩
    · exact h

/-- A pass that adds nothing has met no new type. -/
theorem mem_of_finitePass_fixed (h : finitePass definitions finite = finite) {d : TypeDefinition}
    (hd : d ∈ definitions) (hfinite : d.ty.isFinite finite = true) : d.id ∈ finite := by
  induction definitions with
  | nil => cases hd
  | cons d' definitions ih =>
    rw [finitePass_cons] at h
    -- the step at the head cannot have added anything either
    have hhead : (if d'.id ∈ finite then finite
        else if d'.ty.isFinite finite then d'.id :: finite else finite) = finite := by
      have hsuffix : (if d'.id ∈ finite then finite
          else if d'.ty.isFinite finite then d'.id :: finite else finite) <:+
          finitePass definitions _ := suffix_finitePass
      rw [h] at hsuffix
      split at hsuffix
      · simp [*]
      · split at hsuffix
        · exact absurd hsuffix.length_le (by simp)
        · simp [*]
    rw [hhead] at h
    obtain rfl | hd := mem_cons.mp hd
    · by_contra hnew
      simp [hnew, hfinite] at hhead
    · exact ih h hd

end Pass

/-- **Saturation computes the least fixed point.** -/
theorem mem_finiteTypes :
    id ∈ finiteTypes (valuesOf catalog.types) ↔ catalog.HasValue (.ref id) := by
  have hstep : ∀ finite, Found catalog finite →
      Found catalog (finitePass (valuesOf catalog.types) finite) :=
    fun finite h => finitePass_found (fun _ h => h) h
  have hbound : ∀ finite, Found catalog finite →
      finite.length ≤ (valuesOf catalog.types).length := by
    intro finite h
    have hsub := h.nodup.subperm h.known
    simpa using hsub.length_le
  have hempty : Found catalog [] := ⟨nodup_nil, by simp, by simp⟩
  have hfixed := iterate_fixed (fun _ => suffix_finitePass) hstep hbound hempty
  have hfound : Found catalog (finiteTypes (valuesOf catalog.types)) :=
    Function.Iterate.rec (Found catalog) hempty hstep _
  refine ⟨hfound.inhabited id, fun h => ?_⟩
  have hfinite := isFinite_of_hasValue
    (fun d hd hfinite => mem_of_finitePass_fixed hfixed hd hfinite) h
  exact of_decide_eq_true hfinite

/-! ## Values -/

/-- Named types have identities of their own. -/
def DistinctIds (catalog : Catalog) : Prop :=
  ((valuesOf catalog.types).map fun d => d.id).Nodup

theorem definition_of_mem (hids : catalog.DistinctIds)
    (hd : d ∈ valuesOf catalog.types) : catalog.definition d.id = .ok d := by
  unfold definition
  cases hfind : (valuesOf catalog.types).find? fun d' => d'.id = d.id with
  | none => simpa using find?_eq_none.mp hfind d hd
  | some d' =>
    have hid : d'.id = d.id := by simpa using find?_some hfind
    rw [inj_on_of_nodup_map hids (mem_of_find?_eq_some hfind) hd hid]

theorem exists_items (h : ∀ ty ∈ types, ∃ v, catalog.Typed ty v) :
    ∃ vs, Forall₂ catalog.Typed types vs := by
  induction types with
  | nil => exact ⟨[], .nil⟩
  | cons ty types ih =>
    obtain ⟨⟨v, hv⟩, hrest⟩ := forall_mem_cons.mp h
    obtain ⟨vs, hvs⟩ := ih hrest
    exact ⟨v :: vs, .cons hv hvs⟩

/-- **An inhabited type has a typed value.** -/
theorem HasValue.exists_typed (hc : catalog.Declared) (hids : catalog.DistinctIds)
    (h : catalog.HasValue ty) (hty : ty.Everywhere catalog.IsDeclared) :
    ∃ v, catalog.Typed ty v := by
  induction h with
  | tuple _ ih =>
    obtain ⟨vs, hvs⟩ := exists_items fun ty hmem => ih ty hmem (hty.item hmem)
    exact ⟨.tuple vs, typed_tuple.mpr ⟨vs, rfl, hvs⟩⟩
  | @record columns _ ih =>
    obtain ⟨vs, hvs⟩ : ∃ vs, Forall₂ catalog.Typed (columns.map fun c => c.ty) vs := by
      refine exists_items fun ty hmem => ?_
      obtain ⟨c, hc', rfl⟩ := mem_map.mp hmem
      exact ih c hc' (hty.field hc')
    obtain ⟨fields, hfields, -⟩ := exists_fields hty.here hvs
    exact ⟨.record fields, typed_record.mpr ⟨fields, rfl, hfields⟩⟩
  | enum hv _ ih =>
    obtain ⟨vs, hvs⟩ := exists_items fun ty hmem => ih ty hmem (hty.arg hv hmem)
    exact ⟨.enum _ vs _, typed_enum.mpr ⟨_, hv, vs, rfl, hvs⟩⟩
  | ref hd _ ih =>
    have hdef := definition_of_mem hids hd
    obtain ⟨v, hv⟩ := ih (hc _ _ hdef)
    exact ⟨.named _ v, typed_ref.mpr ⟨v, _, rfl, hdef, hv⟩⟩
  | _ => exact exists_typed_immediate hty.here trivial

/-! ## Mutual cycles -/

/-- One named type mentions another. -/
def Refers (catalog : Catalog) (a b : UInt64) : Prop :=
  ∃ d, catalog.definition a = .ok d ∧ b ∈ d.ty.references

/-- One reference of an open type. -/
def visitReference (catalog : Catalog) (n : ℕ) (visiting : List UInt64) (id : UInt64)
    (definition : TypeDefinition) (reference : UInt64) : StateT (List UInt64) Result Unit :=
  if reference = id then pure ()
  else if reference ∈ id :: visiting then do
    let other ← catalog.definition reference
    throw { code := .E_SCHEMA, message := ("mutually recursive types '" ++ definition.name ++
      "' and '" ++ other.name ++ "' are not supported; use direct self-reference or " ++
      "separate the values" : String) }
  else visitCycles catalog n (id :: visiting) reference

theorem visitCycles_succ (n : ℕ) (visiting : List UInt64) (id : UInt64) (visited : List UInt64) :
    visitCycles catalog (n + 1) visiting id visited =
      if id ∈ visited then .ok ((), visited)
      else catalog.definition id >>= fun definition =>
        (definition.ty.references.dedup.insertionSort (· ≤ ·)).forM
          (visitReference catalog n visiting id definition) visited >>= fun result =>
            .ok ((), id :: result.2) := by
  have hget : visitCycles catalog (n + 1) visiting id visited =
      (if id ∈ visited then pure ()
      else liftM (catalog.definition id) >>= fun definition =>
        (definition.ty.references.dedup.insertionSort (· ≤ ·)).forM
          (visitReference catalog n visiting id definition) >>= fun _ => modify (id :: ·) :
        StateT (List UInt64) Result Unit) visited := rfl
  rw [hget]
  split
  · rfl
  · cases hd : catalog.definition id with
    | error e => rfl
    | ok d => rfl

/-- What a search has done to the finished types. -/
structure Explored (catalog : Catalog) (visiting visited visited' : List UInt64) : Prop where
  ordered : Ordered catalog.Refers visited'
  nodup : visited'.Nodup
  kept : ∀ id ∈ visited, id ∈ visited'
  added : ∀ id ∈ visited', id ∈ visited ∨ id ∉ visiting

theorem Explored.refl (hordered : Ordered catalog.Refers visited) (hnodup : visited.Nodup) :
    Explored catalog visiting visited visited :=
  ⟨hordered, hnodup, fun _ h => h, fun _ h => .inl h⟩

theorem Explored.trans {next final : List UInt64} (h : Explored catalog visiting visited next)
    (h' : Explored catalog visiting next final) : Explored catalog visiting visited final where
  ordered := h'.ordered
  nodup := h'.nodup
  kept id hid := h'.kept id (h.kept id hid)
  added id hid := (h'.added id hid).elim (h.added id) .inr

section Loop
variable {α : Type} {visit : α → StateT (List UInt64) Result Unit} {l : List α}

/-- A loop of searches explores what each of them does. -/
theorem explored_forM {Q : α → List UInt64 → Prop} {final : List UInt64}
    (hQ : ∀ a s t, Q a s → (∀ id ∈ s, id ∈ t) → Q a t)
    (hstep : ∀ a s t, Ordered catalog.Refers s → s.Nodup → visit a s = .ok ((), t) →
      Explored catalog visiting s t ∧ Q a t)
    (hordered : Ordered catalog.Refers visited) (hnodup : visited.Nodup)
    (h : l.forM visit visited = .ok ((), final)) :
    Explored catalog visiting visited final ∧ ∀ a ∈ l, Q a final := by
  induction l generalizing visited with
  | nil =>
    cases h
    exact ⟨.refl hordered hnodup, by simp⟩
  | cons a l ih =>
    obtain ⟨_, next, hnext, h⟩ := stateT_bind_eq_ok.mp h
    obtain ⟨hexplored, ha⟩ := hstep a visited next hordered hnodup hnext
    obtain ⟨hrest, hall⟩ := ih hexplored.ordered hexplored.nodup h
    exact ⟨hexplored.trans hrest, forall_mem_cons.mpr ⟨hQ a next final ha hrest.kept, hall⟩⟩

theorem exists_forM_eq_ok (h : ∀ a ∈ l, ∀ s, ∃ t, visit a s = .ok ((), t)) (s : List UInt64) :
    ∃ t, l.forM visit s = .ok ((), t) := by
  induction l generalizing s with
  | nil => exact ⟨s, rfl⟩
  | cons a l ih =>
    obtain ⟨ha, hl⟩ := forall_mem_cons.mp h
    obtain ⟨next, hnext⟩ := ha s
    obtain ⟨t, ht⟩ := ih hl next
    exact ⟨t, stateT_bind_eq_ok.mpr ⟨(), next, hnext, ht⟩⟩

end Loop

/-- **A search that succeeds has ordered the types it met.** -/
theorem visitCycles_sound {visited' : List UInt64}
    (hordered : Ordered catalog.Refers visited) (hnodup : visited.Nodup) (hid : id ∉ visiting)
    (h : visitCycles catalog n visiting id visited = .ok ((), visited')) :
    Explored catalog visiting visited visited' ∧ id ∈ visited' := by
  induction n generalizing visiting visited visited' id with
  | zero => cases h
  | succ n ih =>
    rw [visitCycles_succ] at h
    split at h
    · next hmem =>
      cases h
      exact ⟨.refl hordered hnodup, hmem⟩
    next hnew =>
    obtain ⟨d, hd, hbody⟩ := of_bind h
    obtain ⟨⟨_, mid⟩, hloop, hout⟩ := of_bind hbody
    cases hout
    -- every reference but the type itself is finished after the loop
    have hloop' : Explored catalog (id :: visiting) visited mid ∧
        ∀ r ∈ d.ty.references.dedup.insertionSort (· ≤ ·), r = id ∨ r ∈ mid := by
      refine explored_forM (Q := fun r s => r = id ∨ r ∈ s)
        (fun r s t hr hst => hr.imp_right (hst r)) (fun r s t hordered hnodup hstep => ?_)
        hordered hnodup hloop
      unfold visitReference at hstep
      split at hstep
      · next heq =>
        cases hstep
        exact ⟨.refl hordered hnodup, .inl heq⟩
      · split at hstep
        · obtain ⟨_, _, _, hthrow⟩ := stateT_bind_eq_ok.mp hstep
          cases hthrow
        · next hfresh => exact (ih hordered hnodup hfresh hstep).imp_right .inr
    obtain ⟨hexp, hall⟩ := hloop'
    have hfresh : id ∉ mid := fun hmem => (hexp.added id hmem).elim hnew (· mem_cons_self)
    refine ⟨⟨⟨fun b hb => ?_, hexp.ordered⟩, nodup_cons.mpr ⟨hfresh, hexp.nodup⟩,
      fun x hx => mem_cons_of_mem _ (hexp.kept x hx), fun x hx => ?_⟩, mem_cons_self⟩
    · obtain ⟨d', hd', hb⟩ := hb
      cases hd.symm.trans hd'
      exact hall b (by simpa using hb)
    · obtain rfl | hx := mem_cons.mp hx
      · exact .inr hid
      · exact (hexp.added x hx).imp_right fun h hmem => h (mem_cons_of_mem _ hmem)

theorem exists_definition (hd : d ∈ valuesOf catalog.types) :
    ∃ d', catalog.definition d.id = .ok d' := by
  unfold definition
  cases hfind : (valuesOf catalog.types).find? fun d' => d'.id = d.id with
  | none => simpa using find?_eq_none.mp hfind d hd
  | some d' => exact ⟨d', rfl⟩

/-- Distinct known types are not more than the definitions. -/
theorem length_le_of_known {ids : List UInt64} (hnodup : ids.Nodup)
    (hknown : ∀ id ∈ ids, ∃ d, catalog.definition id = .ok d) :
    ids.length ≤ (valuesOf catalog.types).length := by
  have hsub : ids ⊆ (valuesOf catalog.types).map fun d => d.id := by
    intro id hid
    obtain ⟨d, hd⟩ := hknown id hid
    obtain ⟨rfl, hmem⟩ := definition_mem hd
    exact mem_map_of_mem (mem_valuesOf.mpr hmem)
  simpa using (hnodup.subperm hsub).length_le

/-- **Without mutual cycles the search succeeds.** The open types reach the one visited,
so a reference back to one of them would close a cycle. -/
theorem visitCycles_complete
    (hknown : ∀ a b, catalog.Refers a b → ∃ d, catalog.definition b = .ok d)
    (hcycle : NoMutualCycle catalog.Refers) (hpath : ∀ x ∈ visiting, TransGen catalog.Refers x id)
    (hopen : (id :: visiting).Nodup) (hdef : ∀ x ∈ id :: visiting, ∃ d,
      catalog.definition x = .ok d)
    (hfuel : (valuesOf catalog.types).length < n + visiting.length) :
    ∃ visited', visitCycles catalog n visiting id visited = .ok ((), visited') := by
  induction n generalizing visiting visited id with
  | zero =>
    have hlen := length_le_of_known hopen hdef
    rw [length_cons] at hlen
    omega
  | succ n ih =>
    rw [visitCycles_succ]
    split
    · exact ⟨visited, rfl⟩
    obtain ⟨d, hd⟩ := hdef id mem_cons_self
    obtain ⟨mid, hmid⟩ : ∃ mid, (d.ty.references.dedup.insertionSort (· ≤ ·)).forM
        (visitReference catalog n visiting id d) visited = .ok ((), mid) := by
      refine exists_forM_eq_ok (fun r hr visited => ?_) visited
      have hr : catalog.Refers id r := ⟨d, hd, by simpa using hr⟩
      unfold visitReference
      split
      · exact ⟨visited, rfl⟩
      next hne =>
      split
      · next hback =>
        have hback := (mem_cons.mp hback).resolve_left hne
        exact absurd (hpath r hback) (hcycle id r (Ne.symm hne) (.single hr))
      · next hfresh =>
        refine ih (fun x hx => ?_) (nodup_cons.mpr ⟨hfresh, hopen⟩)
          (forall_mem_cons.mpr ⟨hknown id r hr, hdef⟩) (by rw [length_cons]; omega)
        obtain rfl | hx := mem_cons.mp hx
        · exact .single hr
        · exact (hpath x hx).tail hr
    exact ⟨id :: mid, by rw [hd, ok_bind, hmid, ok_bind]⟩

/-- **The searches from all types find exactly the mutual cycles.** -/
theorem validateNoMutualCycles_iff
    (hknown : ∀ a b, catalog.Refers a b → ∃ d, catalog.definition b = .ok d) :
    catalog.validateNoMutualCycles = .ok () ↔ NoMutualCycle catalog.Refers := by
  have hrun : catalog.validateNoMutualCycles = .ok () ↔
      ∃ visited, (valuesOf catalog.types).forM (fun d => visitCycles catalog
        ((valuesOf catalog.types).length + 1) [] d.id) [] = .ok ((), visited) := by
    unfold validateNoMutualCycles
    rw [bind_eq_ok]
    constructor
    · rintro ⟨⟨_, visited⟩, h, -⟩
      exact ⟨visited, h⟩
    · rintro ⟨visited, h⟩
      exact ⟨((), visited), h, rfl⟩
  rw [hrun]
  constructor
  · rintro ⟨visited, h⟩
    have hempty : Ordered catalog.Refers [] := trivial
    obtain ⟨hexp, hmem⟩ := explored_forM (Q := fun d s => d.id ∈ s)
      (fun d s t hd hst => hst d.id hd)
      (fun d s t hordered hnodup => visitCycles_sound hordered hnodup not_mem_nil)
      hempty nodup_nil h
    -- a type on a cycle has a definition, so the search has met it
    have hmet : ∀ a b, TransGen catalog.Refers a b → a ∈ visited := by
      intro a b hab
      obtain ⟨c, ⟨d, hd, -⟩, -⟩ := TransGen.head'_iff.mp hab
      obtain ⟨rfl, hname⟩ := definition_mem hd
      exact hmem d (mem_valuesOf.mpr hname)
    exact fun a b hne hab hba =>
      hexp.ordered.not_mutual hexp.nodup (hmet a b hab) (hmet b a hba) hne hab hba
  · intro hcycle
    exact exists_forM_eq_ok (fun d hd before => visitCycles_complete hknown hcycle (by simp)
      (by simp) (by simpa using exists_definition hd) (by simp)) []

/-! ## Admission -/

theorem mem_referencesItems
    (h : id ∈ referencesItems types) : ∃ ty ∈ types, id ∈ ty.references := by
  induction types with
  | nil => cases h
  | cons ty types ih =>
    obtain h | h := mem_append.mp h
    · exact ⟨ty, mem_cons_self, h⟩
    · obtain ⟨ty', hty', hid⟩ := ih h
      exact ⟨ty', mem_cons_of_mem _ hty', hid⟩

theorem mem_referencesColumns
    (h : id ∈ referencesColumns columns) : ∃ c ∈ columns, id ∈ c.ty.references := by
  induction columns with
  | nil => cases h
  | cons c columns ih =>
    obtain h | h := mem_append.mp h
    · exact ⟨c, mem_cons_self, h⟩
    · obtain ⟨c', hc', hid⟩ := ih h
      exact ⟨c', mem_cons_of_mem _ hc', hid⟩

theorem mem_referencesVariants
    (h : id ∈ referencesVariants variants) : ∃ v ∈ variants, ∃ ty ∈ v.args, id ∈ ty.references := by
  induction variants with
  | nil => cases h
  | cons v variants ih =>
    obtain h | h := mem_append.mp h
    · exact ⟨v, mem_cons_self, mem_referencesItems h⟩
    · obtain ⟨v', hv', hid⟩ := ih h
      exact ⟨v', mem_cons_of_mem _ hv', hid⟩

/-- A reference stands at the top of a type or in one of its parts. -/
theorem mem_references (h : id ∈ ty.references) :
    ty = .ref id ∨ ∃ part ∈ ty.parts, id ∈ part.references := by
  cases ty with
  | ref id' =>
    obtain rfl := mem_singleton.mp h
    exact .inl rfl
  | record columns =>
    obtain ⟨c, hc, hid⟩ := mem_referencesColumns h
    exact .inr ⟨c.ty, mem_map_of_mem hc, hid⟩
  | enum variants =>
    obtain ⟨v, hv, ty, hty, hid⟩ := mem_referencesVariants h
    exact .inr ⟨ty, mem_flatMap.mpr ⟨v, hv, hty⟩, hid⟩
  | tuple types => exact .inr (mem_referencesItems h)
  | option inner | list inner | map inner => exact .inr ⟨inner, mem_singleton_self _, h⟩
  | _ => cases h

theorem known_of_complete (h : ty.Everywhere catalog.Complete) :
    ∀ id ∈ ty.references, ∃ d, catalog.definition id = .ok d := by
  induction h with
  | node hhere _ ih =>
    intro id hid
    obtain rfl | ⟨part, hpart, hid⟩ := mem_references hid
    · exact hhere
    · exact ih part hpart id hid

theorem validateFiniteTypes_iff : catalog.validateFiniteTypes = .ok () ↔
    (∀ d ∈ valuesOf catalog.types, d.ty.Everywhere catalog.Complete ∧ d.ty.Within MAX_DEPTH) ∧
      NoMutualCycle catalog.Refers ∧
      ∀ d ∈ valuesOf catalog.types, catalog.HasValue (.ref d.id) := by
  have hrun : catalog.validateFiniteTypes = .ok () ↔
      (∀ d ∈ valuesOf catalog.types, catalog.validateTypeReferences MAX_DEPTH d.ty = .ok ()) ∧
        catalog.validateNoMutualCycles = .ok () ∧
        ∀ d ∈ valuesOf catalog.types, d.id ∈ finiteTypes (valuesOf catalog.types) := by
    unfold validateFiniteTypes
    simp only [bind_eq_ok]
    constructor
    · rintro ⟨_, hrefs, _, hcycles, h⟩
      refine ⟨forM_eq_ok_iff.mp hrefs, hcycles, fun d hd => ?_⟩
      split at h
      · next hnone => simpa using filter_eq_nil_iff.mp hnone d hd
      · cases h
    · rintro ⟨hrefs, hcycles, hall⟩
      refine ⟨(), forM_eq_ok_iff.mpr hrefs, (), hcycles, ?_⟩
      have hnone : (valuesOf catalog.types).filter (fun d =>
          decide (d.id ∉ finiteTypes (valuesOf catalog.types))) = [] :=
        filter_eq_nil_iff.mpr fun d hd => by simpa using hall d hd
      rw [hnone]
      rfl
  rw [hrun]
  simp only [validateTypeReferences_iff, mem_finiteTypes]
  refine and_congr_right fun hcomplete => and_congr_left fun _ => ?_
  refine validateNoMutualCycles_iff fun a b hab => ?_
  obtain ⟨d, hd, hb⟩ := hab
  exact known_of_complete (hcomplete d (mem_valuesOf.mpr (definition_mem hd).2)).1 b hb

/-- **Admission is exact.** A catalog is admitted exactly when its definitions are complete
and not too deep, named types recur only through themselves and every named type has a
finite value. The named types of an admitted catalog have values that coercion leaves
alone, given enough depth. -/
theorem validateFiniteTypes_exact (catalog : Catalog) :
    (catalog.validateFiniteTypes = .ok () ↔
      (∀ d ∈ valuesOf catalog.types, d.ty.Everywhere catalog.Complete ∧ d.ty.Within MAX_DEPTH) ∧
        NoMutualCycle catalog.Refers ∧
        ∀ d ∈ valuesOf catalog.types, catalog.HasValue (.ref d.id)) ∧
    (catalog.WellFormed → catalog.Everywhere ScalarType.PlainVariants → catalog.DistinctIds →
      catalog.validateFiniteTypes = .ok () → ∀ d ∈ valuesOf catalog.types, ∃ n v, ∀ path,
        catalog.coerceInner n v (.ref d.id) path = .ok v) := by
  refine ⟨validateFiniteTypes_iff, fun hwf hplain hids h d hd => ?_⟩
  have hdeclared := declared_of_validateFiniteTypes (fun id d hd => (hwf id d hd).distinct) h
  have hvalue := (validateFiniteTypes_iff.mp h).2.2 d hd
  have hknown : (ScalarType.ref d.id).Everywhere catalog.IsDeclared :=
    .leaf ⟨d, definition_of_mem hids hd⟩ rfl
  obtain ⟨v, n, hv⟩ := hvalue.exists_typed hdeclared hids hknown
  exact ⟨n, v, fun path => hv.coerceInner_eq hwf hplain (.ref d.id) (.leaf trivial rfl) path⟩

def single (ty : ScalarType) : Catalog :=
  { types := (∅ : ExtTreeMap String TypeDefinition).insert "T" ⟨100, "T", ty⟩, nextId := 101 }

theorem valuesOf_single (ty : ScalarType) : valuesOf (single ty).types = [⟨100, "T", ty⟩] := rfl

theorem definition_single (ty : ScalarType) : (single ty).definition 100 = .ok ⟨100, "T", ty⟩ := by
  rw [definition, valuesOf_single]
  rfl

theorem of_definition_single {P : ScalarType → Prop} (h : P ty) (id : UInt64) (d : TypeDefinition)
    (hd : (single ty).definition id = .ok d) : P d.ty := by
  have hmem := mem_valuesOf.mpr (definition_mem hd).2
  rw [valuesOf_single, mem_singleton] at hmem
  exact hmem ▸ h

theorem single_wellFormed (h : ty.WellFormed) : (single ty).WellFormed := of_definition_single h

theorem single_everywhere {P : ScalarType → Prop} (h : ty.Everywhere P) :
    (single ty).Everywhere P := of_definition_single h

/-- A named type without references is on no cycle. -/
theorem noMutualCycle_single (h : ty.references = []) : NoMutualCycle (single ty).Refers := by
  intro a b _ hab
  obtain ⟨c, ⟨d, hd, hc⟩, -⟩ := TransGen.head'_iff.mp hab
  obtain ⟨name, hname⟩ := (definition_mem hd).2
  have hmem := mem_valuesOf.mpr ⟨name, hname⟩
  rw [valuesOf_single, mem_singleton] at hmem
  rw [hmem, h] at hc
  cases hc

/-- An admitted recursive type: a list of integers. -/
def intList : ScalarType := .enum [⟨"nil", [], 1⟩, ⟨"cons", [.int, .ref 100], 2⟩]

theorem validateFiniteTypes_exact_intList :
    (single intList).WellFormed ∧ (single intList).Everywhere ScalarType.PlainVariants ∧
      (single intList).DistinctIds ∧ (single intList).validateFiniteTypes = .ok () ∧
      ∃ n v, ∀ path, (single intList).coerceInner n v (.ref 100) path = .ok v := by
  have hwf : (single intList).WellFormed := by
    apply single_wellFormed
    refine .enum (by decide) (by decide) fun v hv ty hty => ?_
    simp only [mem_cons, not_mem_nil, or_false] at hv
    obtain rfl | rfl := hv
    · cases hty
    · simp only [mem_cons, not_mem_nil, or_false] at hty
      obtain rfl | rfl := hty
      · exact .int
      · exact .ref 100
  have hplain : (single intList).Everywhere ScalarType.PlainVariants := by
    refine single_everywhere (.node ?_ fun part hpart => ?_)
    · rw [intList, ScalarType.PlainVariants]
      decide +kernel
    · simp only [ScalarType.parts, intList, flatMap_cons, flatMap_nil, nil_append, append_nil,
        mem_cons, not_mem_nil, or_false] at hpart
      obtain rfl | rfl := hpart <;> exact .leaf trivial rfl
  have hids : (single intList).DistinctIds := by
    rw [DistinctIds, valuesOf_single]
    exact nodup_singleton _
  obtain ⟨⟨⟩, hvalid⟩ := exists_of_toBool
    (by decide +kernel : (single intList).validateFiniteTypes.toBool = true)
  have hmem : (⟨100, "T", intList⟩ : TypeDefinition) ∈ valuesOf (single intList).types := by
    rw [valuesOf_single]
    exact mem_singleton_self _
  exact ⟨hwf, hplain, hids, hvalid,
    (validateFiniteTypes_exact _).2 hwf hplain hids hvalid _ hmem⟩

/-- Records nested in records, down to an integer. -/
def nested : ℕ → ScalarType
  | 0 => .int
  | n + 1 => .record [⟨"x", nested n, none, n.toUInt64⟩]

theorem lt_of_hasType_nested {catalog : Catalog} {k : ℕ} {v : Value}
    (h : catalog.HasType n (nested k) v) : k < n := by
  induction k generalizing n v with
  | zero =>
    cases n with
    | zero => cases h
    | succ n => exact Nat.succ_pos n
  | succ k ih =>
    cases n with
    | zero => cases h
    | succ n =>
      obtain ⟨fields, -, -, -, hcolumns⟩ := h
      obtain ⟨w, -, hw⟩ := hcolumns _ (mem_singleton_self _)
      exact Nat.succ_lt_succ (ih hw)

theorem nested_wellFormed (k : ℕ) : (nested k).WellFormed := by
  induction k with
  | zero => exact .int
  | succ k ih =>
    refine .record (by simp) fun c hc => ?_
    obtain rfl := mem_singleton.mp hc
    exact ih

/-- An option of a decimal type that no decimal fits. -/
def wideDecimal : ScalarType := .option (.decimal 99 0)

/-- An option of an invalid decimal type has a value, no reference and no cycle, and is
refused; a type that nests as deep as a definition may is admitted, and has no value that
coercion accepts. -/
theorem validateFiniteTypes_inexact :
    ((∀ d ∈ valuesOf (single wideDecimal).types, ∀ id ∈ d.ty.references,
        ∃ d', (single wideDecimal).definition id = .ok d') ∧
      NoMutualCycle (single wideDecimal).Refers ∧
      (∀ d ∈ valuesOf (single wideDecimal).types,
        ∃ v, (single wideDecimal).WellTyped (.ref d.id) v) ∧
      (single wideDecimal).validateFiniteTypes ≠ .ok ()) ∧
    (single (nested 63)).validateFiniteTypes = .ok () ∧
      ¬∃ v, (single (nested 63)).WellTyped (.ref 100) v := by
  refine ⟨⟨fun d hd id hid => ?_, noMutualCycle_single rfl, fun d hd => ?_, fun h => ?_⟩, ?_, ?_⟩
  · rw [valuesOf_single, mem_singleton] at hd
    subst hd
    cases hid
  · rw [valuesOf_single, mem_singleton] at hd
    subst hd
    refine ⟨.named 100 (.option none), ?_⟩
    rw [WellTyped, coerce, MAX_DEPTH, coerceInner, definition_single]
    rfl
  · have hcomplete := (validateFiniteTypes_iff.mp h).1 ⟨100, "T", wideDecimal⟩ (by
      rw [valuesOf_single]
      exact mem_singleton_self _)
    cases hcomplete.1.option.here
  · exact (exists_of_toBool
      (by decide +kernel : (single (nested 63)).validateFiniteTypes.toBool = true)).choose_spec
  · rintro ⟨v, hv⟩
    have hwf := single_wellFormed (nested_wellFormed 63)
    obtain ⟨inner, d, -, hd, hinner⟩ := hv.hasType hwf (.ref 100)
    cases (definition_single _).symm.trans hd
    exact absurd (lt_of_hasType_nested hinner) (by decide)

end Catalog

end UnionId
