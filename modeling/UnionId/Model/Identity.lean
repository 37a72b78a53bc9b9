import UnionId.Model.Define

/-!
# Stable identities

The body of a named type is resolved with the identity that the type will have: the
counter plus the number of identities in the body. This is right because resolving
hands out exactly as many identities as the count says, in the order in which the
resolved body lists them.

## Main results

* `resolveInner_assigns` — the identities of a resolved type are a run of the counter.
* `structuralIdCount_eq` — the count is their number.
* `defineInPlace_fresh` — a new type has fresh identities, and refers to itself by its own.
-/
namespace UnionId

open Lib Std List

mutual
/-- The identities of the fields and variants of a type, in the order they are handed out. -/
def ScalarType.ids : ScalarType → List UInt64
  | .record columns => idsColumns columns
  | .enum variants => idsVariants variants
  | .tuple items => idsItems items
  | .option inner | .list inner | .map inner => inner.ids
  | _ => []

def idsItems : List ScalarType → List UInt64
  | [] => []
  | ty :: types => ty.ids ++ idsItems types

def idsColumns : List (ColumnOf ScalarType) → List UInt64
  | [] => []
  | ⟨_, ty, _, id⟩ :: columns => ty.ids ++ id :: idsColumns columns

def idsVariants : List (VariantOf ScalarType) → List UInt64
  | [] => []
  | ⟨_, args, id⟩ :: variants => idsItems args ++ id :: idsVariants variants
end

/-- A named type that a type mentions: by its name, or bound to its identity. -/
inductive Mention where
  | name (name : String)
  | id (id : UInt64)
  deriving DecidableEq

mutual
/-- The named types that a type mentions, from left to right. -/
def ScalarType.mentions : ScalarType → List Mention
  | .named name => [.name name]
  | .ref id => [.id id]
  | .record columns => mentionsColumns columns
  | .enum variants => mentionsVariants variants
  | .tuple items => mentionsItems items
  | .option inner | .list inner | .map inner => inner.mentions
  | _ => []

def mentionsItems : List ScalarType → List Mention
  | [] => []
  | ty :: types => ty.mentions ++ mentionsItems types

def mentionsColumns : List (ColumnOf ScalarType) → List Mention
  | [] => []
  | ⟨_, ty, _, _⟩ :: columns => ty.mentions ++ mentionsColumns columns

def mentionsVariants : List (VariantOf ScalarType) → List Mention
  | [] => []
  | ⟨_, args, _⟩ :: variants => mentionsItems args ++ mentionsVariants variants
end

@[simp] theorem idsColumns_cons (c : Column) (columns : List Column) :
    idsColumns (c :: columns) = c.ty.ids ++ c.id :: idsColumns columns := rfl

@[simp] theorem idsVariants_cons (v : EnumVariantDef) (variants : List EnumVariantDef) :
    idsVariants (v :: variants) = idsItems v.args ++ v.id :: idsVariants variants := rfl

@[simp] theorem mentionsColumns_cons (c : Column) (columns : List Column) :
    mentionsColumns (c :: columns) = c.ty.mentions ++ mentionsColumns columns := rfl

@[simp] theorem mentionsVariants_cons (v : EnumVariantDef) (variants : List EnumVariantDef) :
    mentionsVariants (v :: variants) = mentionsItems v.args ++ mentionsVariants variants := rfl

namespace Catalog

/-! ## Runs of the counter -/

/-- The counter has handed out exactly these identities. -/
structure Hands (next next' : UInt64) (ids : List UInt64) : Prop where
  run : ids.map UInt64.toNat = List.range' next.toNat ids.length
  last : next'.toNat = next.toNat + ids.length

namespace Hands
variable {next mid next' : UInt64} {ids ids' : List UInt64}

theorem nil : Hands next next [] := ⟨rfl, rfl⟩

theorem append (h : Hands next mid ids) (h' : Hands mid next' ids') :
    Hands next next' (ids ++ ids') := by
  refine ⟨?_, ?_⟩
  · rw [map_append, h.run, h'.run, h.last, length_append, List.range'_append_1]
  · rw [h'.last, h.last, length_append, Nat.add_assoc]

theorem cons {id : UInt64} (hid : allocateId next = .ok (id, mid)) (h : Hands mid next' ids) :
    Hands next next' (id :: ids) := by
  obtain ⟨rfl, hmid⟩ := allocateId_eq_ok hid
  have hone : Hands id mid [id] := ⟨rfl, hmid⟩
  exact hone.append h

theorem nodup (h : Hands next next' ids) : ids.Nodup :=
  List.Nodup.of_map _ (h.run ▸ nodup_range')

theorem mem (h : Hands next next' ids) {id : UInt64} (hid : id ∈ ids) :
    next.toNat ≤ id.toNat ∧ id.toNat < next'.toNat := by
  have hrun := mem_map_of_mem (f := UInt64.toNat) hid
  rw [h.run, mem_range'_1] at hrun
  exact ⟨hrun.1, h.last ▸ hrun.2⟩

end Hands

/-! ## Resolving -/

def Binds (types : ExtTreeMap String TypeDefinition) (source bound : Mention) : Prop :=
  match source with
  | .name name => ∃ d, types[name]? = some d ∧ bound = .id d.id
  | .id id => bound = .id id

/-- What a resolver does to the identities and the mentions of a type. -/
structure Assigns (types : ExtTreeMap String TypeDefinition) (next next' : UInt64)
    (ids ids' : List UInt64) (mentions mentions' : List Mention) : Prop where
  hands : Hands next next' ids'
  length : ids'.length = ids.length
  binds : Forall₂ (Binds types) mentions mentions'

theorem Assigns.append {types : ExtTreeMap String TypeDefinition} {next mid next' : UInt64}
    {ids₁ ids₂ ids₁' ids₂' : List UInt64} {mentions₁ mentions₂ mentions₁' mentions₂' : List Mention}
    (h₁ : Assigns types next mid ids₁ ids₁' mentions₁ mentions₁')
    (h₂ : Assigns types mid next' ids₂ ids₂' mentions₂ mentions₂') :
    Assigns types next next' (ids₁ ++ ids₂) (ids₁' ++ ids₂') (mentions₁ ++ mentions₂)
      (mentions₁' ++ mentions₂') :=
  ⟨h₁.hands.append h₂.hands, by simp [h₁.length, h₂.length], rel_append h₁.binds h₂.binds⟩

theorem Assigns.cons {types : ExtTreeMap String TypeDefinition} {next mid next' id id' : UInt64}
    {ids ids' : List UInt64} {mentions mentions' : List Mention}
    (hid : allocateId next = .ok (id', mid))
    (h : Assigns types mid next' ids ids' mentions mentions') :
    Assigns types next next' (id :: ids) (id' :: ids') mentions mentions' :=
  ⟨h.hands.cons hid, by simp [h.length], h.binds⟩

section Resolve
variable {types : ExtTreeMap String TypeDefinition}
  {resolve : ScalarType → StateT UInt64 Result ScalarType} {next next' : UInt64}

/-- A resolver of parts that assigns identities as it should. -/
def Assigner (types : ExtTreeMap String TypeDefinition)
    (resolve : ScalarType → StateT UInt64 Result ScalarType) : Prop :=
  ∀ {ty ty' : ScalarType} {next next' : UInt64}, resolve ty next = .ok (ty', next') →
    Assigns types next next' ty.ids ty'.ids ty.mentions ty'.mentions

theorem resolveItems_assigns (h : Assigner types resolve) {items out : List ScalarType}
    (hrun : resolveItems resolve items next = .ok (out, next')) :
    Assigns types next next' (idsItems items) (idsItems out) (mentionsItems items)
      (mentionsItems out) := by
  induction items generalizing next out with
  | nil =>
    cases hrun
    exact ⟨.nil, rfl, .nil⟩
  | cons ty items ih =>
    obtain ⟨ty', mid, hhead, hrun⟩ := stateT_bind_eq_ok.mp hrun
    obtain ⟨rest, last, hrest, hrun⟩ := stateT_bind_eq_ok.mp hrun
    cases hrun
    exact (h hhead).append (ih hrest)

theorem resolveColumns_assigns (h : Assigner types resolve) {columns out : List Column}
    {seen : List String} (hrun : resolveColumns resolve seen columns next = .ok (out, next')) :
    Assigns types next next' (idsColumns columns) (idsColumns out) (mentionsColumns columns)
      (mentionsColumns out) := by
  induction columns generalizing next out seen with
  | nil =>
    cases hrun
    exact ⟨.nil, rfl, .nil⟩
  | cons c columns ih =>
    unfold resolveColumns at hrun
    split at hrun
    · cases hrun
    · obtain ⟨ty, mid, hty, hrun⟩ := stateT_bind_eq_ok.mp hrun
      obtain ⟨id, mid', hid, hrun⟩ := stateT_bind_eq_ok.mp hrun
      obtain ⟨rest, last, hrest, hrun⟩ := stateT_bind_eq_ok.mp hrun
      cases hrun
      exact (h hty).append ((ih hrest).cons hid)

theorem resolveVariants_assigns (h : Assigner types resolve) {variants out : List EnumVariantDef}
    {seen : List String} (hrun : resolveVariants resolve seen variants next = .ok (out, next')) :
    Assigns types next next' (idsVariants variants) (idsVariants out) (mentionsVariants variants)
      (mentionsVariants out) := by
  induction variants generalizing next out seen with
  | nil =>
    cases hrun
    exact ⟨.nil, rfl, .nil⟩
  | cons v variants ih =>
    unfold resolveVariants at hrun
    split at hrun
    · cases hrun
    · obtain ⟨args, mid, hargs, hrun⟩ := stateT_bind_eq_ok.mp hrun
      obtain ⟨id, mid', hid, hrun⟩ := stateT_bind_eq_ok.mp hrun
      obtain ⟨rest, last, hrest, hrun⟩ := stateT_bind_eq_ok.mp hrun
      cases hrun
      exact (resolveItems_assigns h hargs).append ((ih hrest).cons hid)

end Resolve

/-- **The identities of a resolved type are a run of the counter**, and its mentions are
bound to registered types. -/
theorem resolveInner_assigns (types : ExtTreeMap String TypeDefinition) (n : ℕ) :
    Assigner types (resolveInner types n) := by
  induction n with
  | zero => rintro ty ty' next next' ⟨⟩
  | succ n ih =>
    intro ty ty' next next' hrun
    cases ty with
    | decimal precision scale =>
      obtain ⟨u, mid, hvalid, hrun⟩ := stateT_bind_eq_ok.mp hrun
      cases hrun
      obtain ⟨-, rfl⟩ := stateT_lift_eq_ok.mp hvalid
      exact ⟨.nil, rfl, .nil⟩
    | named name =>
      rw [resolveInner] at hrun
      cases hname : types[name]? with
      | none =>
        rw [hname] at hrun
        cases hrun
      | some d =>
        rw [hname] at hrun
        cases hrun
        exact ⟨.nil, rfl, .cons ⟨d, hname, rfl⟩ .nil⟩
    | record columns =>
      obtain ⟨columns', mid, hcolumns, hrun⟩ := stateT_bind_eq_ok.mp hrun
      cases hrun
      exact resolveColumns_assigns ih hcolumns
    | enum variants =>
      obtain ⟨variants', mid, hvariants, hrun⟩ := stateT_bind_eq_ok.mp hrun
      cases hrun
      exact resolveVariants_assigns ih hvariants
    | tuple items =>
      obtain ⟨items', mid, hitems, hrun⟩ := stateT_bind_eq_ok.mp hrun
      cases hrun
      exact resolveItems_assigns ih hitems
    | option inner | list inner | map inner =>
      obtain ⟨inner', mid, hinner, hrun⟩ := stateT_bind_eq_ok.mp hrun
      cases hrun
      have hassigns := ih hinner
      exact hassigns
    | ref id =>
      cases hrun
      exact ⟨.nil, rfl, .cons rfl .nil⟩
    | int | float | bool | text | uuid | date | timestamp | duration | bytes =>
      cases hrun
      exact ⟨.nil, rfl, .nil⟩

/-! ## The predicted identity -/

theorem addIds_eq_ok {a b c : ℕ} (h : addIds a b = .ok c) : c = a + b ∧ c < 2 ^ 64 := by
  unfold addIds at h
  obtain ⟨hlt, h⟩ := of_required h
  cases h
  exact ⟨rfl, hlt⟩

section Count
variable {count : ScalarType → Result ℕ}

theorem countItems_eq (h : ∀ {ty k}, count ty = .ok k → k = ty.ids.length) {start k : ℕ}
    {items : List ScalarType} (hrun : countItems count start items = .ok k) :
    k = start + (idsItems items).length := by
  induction items generalizing start with
  | nil =>
    cases hrun
    rfl
  | cons ty items ih =>
    rw [countItems, foldlM_cons] at hrun
    obtain ⟨total, hstep, hrun⟩ := of_bind hrun
    obtain ⟨m, hm, hstep⟩ := of_bind hstep
    obtain rfl := h hm
    obtain ⟨rfl, -⟩ := addIds_eq_ok hstep
    rw [ih hrun, idsItems, length_append]
    omega

end Count

variable {ty : ScalarType} {catalog : Catalog}

/-- **The count of a type is the number of its identities.** -/
theorem structuralIdCount_eq {n k : ℕ} (h : structuralIdCount n ty = .ok k) :
    k = ty.ids.length := by
  induction n generalizing ty k with
  | zero => cases h
  | succ n ih =>
    cases ty with
    | record columns =>
      rw [structuralIdCount] at h
      suffices key : ∀ start, columns.foldlM (fun total column => do
          let total ← addIds total 1
          addIds total (← structuralIdCount n column.ty)) start = .ok k →
            k = start + (idsColumns columns).length by
        simpa [ScalarType.ids] using key 0 h
      clear h
      intro start h
      induction columns generalizing start with
      | nil =>
        cases h
        rfl
      | cons c columns ihc =>
        rw [foldlM_cons] at h
        obtain ⟨total, hstep, h⟩ := of_bind h
        obtain ⟨one, hone, m, hm, hstep⟩ := of_bind₂ hstep
        obtain ⟨rfl, -⟩ := addIds_eq_ok hone
        obtain ⟨rfl, -⟩ := addIds_eq_ok hstep
        rw [ihc _ h, ih hm, idsColumns_cons, length_append, length_cons]
        omega
    | enum variants =>
      rw [structuralIdCount] at h
      suffices key : ∀ start, variants.foldlM (fun total variant => do
          let total ← addIds total 1
          countItems (structuralIdCount n) total variant.args) start = .ok k →
            k = start + (idsVariants variants).length by
        simpa [ScalarType.ids] using key 0 h
      clear h
      intro start h
      induction variants generalizing start with
      | nil =>
        cases h
        rfl
      | cons v variants ihv =>
        rw [foldlM_cons] at h
        obtain ⟨total, hstep, h⟩ := of_bind h
        obtain ⟨one, hone, hstep⟩ := of_bind hstep
        obtain ⟨rfl, -⟩ := addIds_eq_ok hone
        rw [ihv _ h, countItems_eq ih hstep, idsVariants_cons, length_append,
          length_cons]
        omega
    | tuple items => simpa [ScalarType.ids] using countItems_eq ih h
    | option inner | list inner | map inner =>
      have hinner := ih h
      exact hinner
    | _ =>
      cases h
      rfl

/-! ## Defaults -/

/-- Two types with the same identities and the same mentions. -/
structure SameIds (ty ty' : ScalarType) : Prop where
  ids : ty'.ids = ty.ids
  mentions : ty'.mentions = ty.mentions

theorem sameIds_items {items items' : List ScalarType} (h : Forall₂ SameIds items items') :
    idsItems items' = idsItems items ∧ mentionsItems items' = mentionsItems items := by
  induction h with
  | nil => exact ⟨rfl, rfl⟩
  | cons hty _ ih => simp [idsItems, mentionsItems, hty.ids, hty.mentions, ih.1, ih.2]

theorem sameIds_columns {columns columns' : List Column}
    (h : Forall₂ (fun c c' => c'.id = c.id ∧ SameIds c.ty c'.ty) columns columns') :
    idsColumns columns' = idsColumns columns ∧
      mentionsColumns columns' = mentionsColumns columns := by
  induction h with
  | nil => exact ⟨rfl, rfl⟩
  | cons hc _ ih => simp [hc.1, hc.2.ids, hc.2.mentions, ih.1, ih.2]

theorem sameIds_variants {variants variants' : List EnumVariantDef}
    (h : Forall₂ (fun v v' => v'.id = v.id ∧ Forall₂ SameIds v.args v'.args)
      variants variants') : idsVariants variants' = idsVariants variants ∧
      mentionsVariants variants' = mentionsVariants variants := by
  induction h with
  | nil => exact ⟨rfl, rfl⟩
  | cons hv _ ih =>
    obtain ⟨hids, hmentions⟩ := sameIds_items hv.2
    simp [hv.1, hids, hmentions, ih.1, ih.2]

/-- Normalising defaults leaves identities and mentions alone. -/
theorem normalizeDefaults_sameIds {n : ℕ} {ty' : ScalarType}
    (h : catalog.normalizeDefaults n ty = .ok ty') : SameIds ty ty' := by
  induction n generalizing ty ty' with
  | zero => cases h
  | succ n ih =>
    cases ty with
    | record columns =>
      obtain ⟨columns', hcolumns, rfl⟩ := of_bind_pure h
      obtain ⟨hids, hmentions⟩ := sameIds_columns
        ((mapM_eq_ok_iff.mp hcolumns).imp fun c c' hc => by
        obtain ⟨-, hid, hty⟩ := normalizeColumn_eq_ok hc
        exact ⟨hid, ih hty⟩)
      exact ⟨hids, hmentions⟩
    | enum variants =>
      obtain ⟨variants', hvariants, rfl⟩ := of_bind_pure h
      obtain ⟨hids, hmentions⟩ :=
        sameIds_variants ((mapM_eq_ok_iff.mp hvariants).imp fun v v' hv => by
          obtain ⟨-, hid, hargs⟩ := normalizeVariant_eq_ok hv
          exact ⟨hid, hargs.imp fun _ _ hty => ih hty⟩)
      exact ⟨hids, hmentions⟩
    | tuple items =>
      obtain ⟨items', hitems, rfl⟩ := of_bind_pure h
      obtain ⟨hids, hmentions⟩ :=
        sameIds_items ((mapM_eq_ok_iff.mp hitems).imp fun _ _ hty => ih hty)
      exact ⟨hids, hmentions⟩
    | option inner | list inner | map inner =>
      obtain ⟨inner', hinner, rfl⟩ := of_bind_pure h
      obtain ⟨hids, hmentions⟩ := ih hinner
      exact ⟨hids, hmentions⟩
    | _ =>
      cases h
      exact ⟨rfl, rfl⟩

/-! ## Definitions -/

/-- Every identity of the registered types. -/
def ids (catalog : Catalog) : List UInt64 :=
  (valuesOf catalog.types).flatMap fun d => d.id :: d.ty.ids

/-- Registering a type in place: on failure the previous catalog is put back. -/
def defineInPlace (catalog : Catalog) (name : String) (ty : ScalarType) : Catalog × Result Unit :=
  match catalog.define name ty with
  | .ok catalog' => (catalog', .ok ())
  | .error e => (catalog, .error e)

theorem mem_ids {id : UInt64} :
    id ∈ catalog.ids ↔ ∃ (name : String) (d : TypeDefinition), catalog.types[name]? = some d ∧
      id ∈ d.id :: d.ty.ids := by
  simp only [ids, mem_flatMap, mem_valuesOf]
  constructor
  · rintro ⟨d, ⟨name, hd⟩, hid⟩
    exact ⟨name, d, hd, hid⟩
  · rintro ⟨name, d, hd, hid⟩
    exact ⟨d, ⟨name, hd⟩, hid⟩

theorem getElem?_insert_type (types : ExtTreeMap String TypeDefinition) (name : String)
    (d : TypeDefinition) (other : String) :
    (types.insert name d)[other]? = if other = name then some d else types[other]? := by
  simp only [ExtTreeMap.getElem?_insert, Std.compare_eq_iff_eq, eq_comm (a := name)]

/-- What a successful definition has done. -/
theorem define_eq_ok {catalog' : Catalog} {name : String}
    (h : catalog.define name ty = .ok catalog') :
    ∃ d : TypeDefinition, d.name = name ∧ catalog.types[name]? = none ∧
      (∀ other : String, catalog'.types[other]? =
        if other = name then some d else catalog.types[other]?) ∧
      Hands catalog.nextId catalog'.nextId (d.ty.ids ++ [d.id]) ∧
      Forall₂ (Binds catalog'.types) ty.mentions d.ty.mentions := by
  unfold define at h
  split at h
  · cases h
  next hnew =>
  obtain ⟨bodyIds, hcount, reserved, hreserved, h⟩ := of_bind₂ h
  obtain ⟨⟨resolved, next⟩, hresolve, ⟨allocated, next'⟩, hallocate, h⟩ := of_bind₂ h
  obtain ⟨normal, hnormal, -, -, h⟩ := of_bind₂ h
  cases h
  obtain ⟨hands, hlength, hbinds⟩ := resolveInner_assigns _ _ hresolve
  obtain ⟨hids, hmentions⟩ := normalizeDefaults_sameIds hnormal
  obtain rfl := structuralIdCount_eq hcount
  obtain ⟨rfl, hlt⟩ := addIds_eq_ok hreserved
  -- the predicted identity is the one handed out after the body
  have hid : UInt64.ofNat (catalog.nextId.toNat + ty.ids.length) = allocated := by
    obtain ⟨rfl, -⟩ := allocateId_eq_ok hallocate
    apply UInt64.toNat_inj.mp
    rw [UInt64.toNat_ofNat_of_lt' hlt, hands.last, hlength]
  subst hid
  have hlookup : ∀ (d d' d'' : TypeDefinition) (other : String),
      (((catalog.types.insert name d).insert name d').insert name d'')[other]? =
        if other = name then some d'' else catalog.types[other]? := by
    intro d d' d'' other
    simp only [getElem?_insert_type]
    split <;> rfl
  refine ⟨_, rfl, by simpa using hnew, hlookup _ _ _, ?_, ?_⟩
  · rw [hids]
    exact hands.append (Hands.nil.cons hallocate)
  · rw [hmentions]
    refine hbinds.imp fun source bound hbind => ?_
    cases source with
    | id id => exact hbind
    | name other =>
      obtain ⟨d, hd, rfl⟩ := hbind
      simp only [Binds, hlookup]
      rw [getElem?_insert_type] at hd
      split at hd
      · next heq =>
        cases hd
        exact ⟨_, if_pos heq, rfl⟩
      · next hne => exact ⟨d, (if_neg hne).trans hd, rfl⟩

/-- **A new type has fresh identities.** A failed definition leaves the catalog as it was.
After a successful one the type, its fields and its variants at any depth have pairwise
distinct identities that the counter had not reached, each mention of a name is bound to
the identity of the type registered under it (for the name being defined, to the
identity of the new type), no other type has changed, and the counter is above all
identities again. -/
theorem defineInPlace_fresh {catalog : Catalog} (hbelow : ∀ id ∈ catalog.ids, id < catalog.nextId)
    (name : String) (ty : ScalarType) :
    (∃ e, catalog.defineInPlace name ty = (catalog, .error e)) ∨
      ∃ (catalog' : Catalog) (d : TypeDefinition),
        catalog.defineInPlace name ty = (catalog', .ok ()) ∧
        catalog'.types[name]? = some d ∧ d.name = name ∧
        (∀ other ≠ name, catalog'.types[other]? = catalog.types[other]?) ∧
        (d.id :: d.ty.ids).Nodup ∧
        (∀ id ∈ d.id :: d.ty.ids, catalog.nextId ≤ id ∧ id ∉ catalog.ids) ∧
        Forall₂ (Binds catalog'.types) ty.mentions d.ty.mentions ∧
        ∀ id ∈ catalog'.ids, id < catalog'.nextId := by
  unfold defineInPlace
  cases hdefine : catalog.define name ty with
  | error e => exact .inl ⟨e, rfl⟩
  | ok catalog' =>
    obtain ⟨d, hname, -, hlookup, hands, hbinds⟩ := define_eq_ok hdefine
    have hmem : ∀ id ∈ d.id :: d.ty.ids, id ∈ d.ty.ids ++ [d.id] := by
      intro id hid
      simpa [or_comm] using hid
    have hfresh : ∀ id ∈ d.id :: d.ty.ids, catalog.nextId ≤ id ∧ id ∉ catalog.ids := by
      intro id hid
      have hle : catalog.nextId ≤ id := UInt64.le_iff_toNat_le.mpr (hands.mem (hmem id hid)).1
      exact ⟨hle, fun hold => absurd (hbelow id hold) (UInt64.not_lt.mpr hle)⟩
    refine .inr ⟨catalog', d, rfl, (hlookup name).trans (if_pos rfl), hname,
      fun other hother => (hlookup other).trans (if_neg hother), ?_, hfresh, hbinds,
      fun id hid => ?_⟩
    · exact (perm_append_singleton d.id d.ty.ids).nodup_iff.mp hands.nodup
    · obtain ⟨other, d', hd', hid⟩ := mem_ids.mp hid
      rw [hlookup] at hd'
      split at hd'
      · cases hd'
        exact UInt64.lt_iff_toNat_lt.mpr (hands.mem (hmem id hid)).2
      · have hlt := UInt64.lt_iff_toNat_lt.mp (hbelow id (mem_ids.mpr ⟨other, d', hd', hid⟩))
        rw [UInt64.lt_iff_toNat_lt, hands.last]
        omega

/-- A list type that mentions itself. -/
theorem defineInPlace_fresh_list :
    (∀ id ∈ Catalog.empty.ids, id < Catalog.empty.nextId) ∧
      ∃ (catalog' : Catalog) (d : TypeDefinition),
        Catalog.empty.defineInPlace "list"
          (.enum [⟨"nil", [], 0⟩, ⟨"cons", [.int, .named "list"], 0⟩]) = (catalog', .ok ()) ∧
        (d.id :: d.ty.ids).Nodup ∧ d.ty.mentions = [.id d.id] := by
  have hids : Catalog.empty.ids = [] := by decide +kernel
  have hbelow : ∀ id ∈ Catalog.empty.ids, id < Catalog.empty.nextId := by simp [hids]
  have hok : (Catalog.empty.defineInPlace "list"
      (.enum [⟨"nil", [], 0⟩, ⟨"cons", [.int, .named "list"], 0⟩])).2.toBool = true := by
    decide +kernel
  refine ⟨hbelow, ?_⟩
  obtain ⟨e, he⟩ | ⟨catalog', d, hrun, hd, -, -, hnodup, -, hbinds, -⟩ := defineInPlace_fresh hbelow
    "list" (.enum [⟨"nil", [], 0⟩, ⟨"cons", [.int, .named "list"], 0⟩])
  · rw [he] at hok
    cases hok
  · refine ⟨catalog', d, hrun, hnodup, ?_⟩
    obtain ⟨m, rest, ⟨d', hd', rfl⟩, hrest, hmentions⟩ := forall₂_cons_left_iff.mp hbinds
    cases hd.symm.trans hd'
    cases hrest
    exact hmentions

end Catalog

end UnionId
