import UnionId.Matching.Coverage
import UnionId.Model.RowTyping

/-!
# What the coverage searches decide

The constructors of a declared type split its values, so the general theory of
pattern matrices applies: unless a limit stops it, the first search decides whether a
query is useful, and the second whether some values are left over.
-/
namespace UnionId.Matching

open Lib Catalog List

/-- The arguments of a value under a constructor. -/
def fieldsOf : CoverageConstructor → Value → Option (List Value)
  | c, value =>
    match c, value.unwrapped with
    | .variant id _, .enum _ args id' => if id = id' then some args else none
    | .none, .option none => some []
    | .some, .option (some v) => some [v]
    | .record names, .record fields => names.mapM fun name => fields.lookup name
    | .tuple, .tuple items => some items
    | _, _ => none

variable {catalog : Catalog}

/-- Typed values are accepted by the query and by no row. -/
abbrev IsUseful (catalog : Catalog) : List (List CoveragePattern) → List CoveragePattern →
    List ScalarType → Prop := Useful fieldsOf catalog.Typed

/-- A coverage pattern fits a type. -/
inductive Shaped (catalog : Catalog) : ScalarType → CoveragePattern → Prop
  | wildcard (ty : ScalarType) : Shaped catalog ty .wildcard
  | constructor {ty : ScalarType} {specs : List ConstructorSpec} {spec : ConstructorSpec}
      {args : List CoveragePattern} (hspecs : constructorSpecs catalog ty = .ok (some specs))
      (hspec : spec ∈ specs) (hargs : Forall₂ (Shaped catalog) spec.2 args) :
      Shaped catalog ty (.constructor spec.1 args)

/-! ## The constructors of a type split its values -/

variable {ty : ScalarType} {spec : ConstructorSpec} {specs : List ConstructorSpec}
  {variants : List EnumVariantDef} {columns : List Column}

theorem mem_orderedVariants
    {v : EnumVariantDef} : v ∈ orderedVariants ty variants ↔ v ∈ variants := by
  unfold orderedVariants
  split
  · exact mem_mergeSort
  · rfl

theorem constructorSpecs_eq_ok {specs : Option (List ConstructorSpec)} :
    constructorSpecs catalog ty = .ok specs ↔
      ∃ u, catalog.underlying ty = .ok u ∧ specsOf ty u = specs := by
  simp only [constructorSpecs, bind_eq_ok, pure_eq_ok, Except.ok.injEq]

theorem splits_enum
    (hids : (variants.map fun v => v.id).Nodup)
    (hu : catalog.underlying ty = .ok (.enum variants)) :
    Splits fieldsOf catalog.Typed ty ((orderedVariants ty variants).map variantSpec) := by
  have hdown := (underlying_typed hu).1
  have hmem : ∀ s ∈ (orderedVariants ty variants).map variantSpec,
      ∃ v ∈ variants, variantSpec v = s := by
    intro s hs
    obtain ⟨v, hv, rfl⟩ := mem_map.mp hs
    exact ⟨v, mem_orderedVariants.mp hv, rfl⟩
  have hsame : ∀ v ∈ variants, ∀ w ∈ variants, v.id = w.id → v = w :=
    fun v hv w hw h => inj_on_of_nodup_map hids hv hw h
  refine ⟨fun v hv => ?_, fun s hs vs hvs => ?_, fun v hv s hs s' hs' h h' => ?_,
    fun s hs s' hs' h => ?_⟩
  · obtain ⟨variant, hvariant, args, hval, hargs⟩ := typed_enum.mp (hdown v hv)
    exact ⟨variantSpec variant, mem_map_of_mem (mem_orderedVariants.mpr hvariant), args,
      by simp [fieldsOf, variantSpec, hval], hargs⟩
  · obtain ⟨variant, hvariant, rfl⟩ := hmem s hs
    obtain ⟨v, hv, hval⟩ := (underlying_typed hu).2 (.enum variant.name vs variant.id)
      (typed_enum.mpr ⟨variant, hvariant, vs, rfl, hvs⟩)
    exact ⟨v, hv, by simp [fieldsOf, variantSpec, hval]⟩
  · obtain ⟨w, hw, rfl⟩ := hmem s hs
    obtain ⟨w', hw', rfl⟩ := hmem s' hs'
    obtain ⟨variant, hvariant, args, hval, hargs⟩ := typed_enum.mp (hdown v hv)
    simp only [fieldsOf, variantSpec, hval, ne_eq, ite_eq_right_iff, reduceCtorEq, imp_false,
      not_not] at h h'
    rw [hsame w hw w' hw' (h.trans h'.symm)]
  · obtain ⟨w, hw, rfl⟩ := hmem s hs
    obtain ⟨w', hw', rfl⟩ := hmem s' hs'
    simp only [variantSpec, CoverageConstructor.variant.injEq] at h
    rw [hsame w hw w' hw' h.1]

theorem splits_option {inner : ScalarType} (hu : catalog.underlying ty = .ok (.option inner)) :
    Splits fieldsOf catalog.Typed ty [(.none, []), (.some, [inner])] := by
  have hdown := (underlying_typed hu).1
  have hup := (underlying_typed hu).2
  refine ⟨fun v hv => ?_, fun s hs vs hvs => ?_, fun v hv s hs s' hs' h h' => ?_,
    fun s hs s' hs' h => ?_⟩
  · obtain hval | ⟨w, hval, hw⟩ := typed_option.mp (hdown v hv)
    · exact ⟨(.none, []), by simp, [], by simp [fieldsOf, hval], .nil⟩
    · exact ⟨(.some, [inner]), by simp, [w], by simp [fieldsOf, hval], .cons hw .nil⟩
  · simp only [mem_cons, not_mem_nil, or_false] at hs
    obtain rfl | rfl := hs
    · obtain rfl := forall₂_nil_left_iff.mp hvs
      obtain ⟨v, hv, hval⟩ := hup (.option none) (typed_option.mpr (.inl rfl))
      exact ⟨v, hv, by simp [fieldsOf, hval]⟩
    · obtain ⟨w, rest, hw, hrest, rfl⟩ := forall₂_cons_left_iff.mp hvs
      obtain rfl := forall₂_nil_left_iff.mp hrest
      obtain ⟨v, hv, hval⟩ := hup (.option (some w)) (typed_option.mpr (.inr ⟨w, rfl, hw⟩))
      exact ⟨v, hv, by simp [fieldsOf, hval]⟩
  · simp only [mem_cons, not_mem_nil, or_false] at hs hs'
    obtain hval | ⟨w, hval, -⟩ := typed_option.mp (hdown v hv) <;>
      obtain rfl | rfl := hs <;> obtain rfl | rfl := hs' <;> simp_all [fieldsOf]
  · simp only [mem_cons, not_mem_nil, or_false] at hs hs'
    obtain rfl | rfl := hs <;> obtain rfl | rfl := hs' <;> simp_all

/-- A type with one constructor. -/
theorem splits_single (hsplit : ∀ v, catalog.Typed ty v →
      ∃ vs, fieldsOf spec.1 v = some vs ∧ Forall₂ catalog.Typed spec.2 vs)
    (hbuild : ∀ vs, Forall₂ catalog.Typed spec.2 vs →
      ∃ v, catalog.Typed ty v ∧ fieldsOf spec.1 v = some vs) :
    Splits fieldsOf catalog.Typed ty [spec] := by
  refine ⟨fun v hv => ⟨spec, by simp, hsplit v hv⟩, fun s hs vs hvs => ?_,
    fun v hv s hs s' hs' _ _ => ?_, fun s hs s' hs' _ => ?_⟩
  · obtain rfl := mem_singleton.mp hs
    exact hbuild vs hvs
  · rw [mem_singleton.mp hs, mem_singleton.mp hs']
  · rw [mem_singleton.mp hs, mem_singleton.mp hs']

theorem splits_tuple {items : List ScalarType} (hu : catalog.underlying ty = .ok (.tuple items)) :
    Splits fieldsOf catalog.Typed ty [(.tuple, items)] := by
  refine splits_single (fun v hv => ?_) fun vs hvs => ?_
  · obtain ⟨vs, hval, hvs⟩ := typed_tuple.mp ((underlying_typed hu).1 v hv)
    exact ⟨vs, by simp [fieldsOf, hval], hvs⟩
  · obtain ⟨v, hv, hval⟩ := (underlying_typed hu).2 (.tuple vs) (typed_tuple.mpr ⟨vs, rfl, hvs⟩)
    exact ⟨v, hv, by simp [fieldsOf, hval]⟩

/-- The values of the columns, in their order. -/
theorem mapM_lookup {fields : Fields}
    (h : ∀ c ∈ columns, ∃ v, fields.lookup c.name = some v ∧ catalog.Typed c.ty v) :
    ∃ vs, (columns.map fun c => c.name).mapM (fun name => fields.lookup name) = some vs ∧
      Forall₂ catalog.Typed (columns.map fun c => c.ty) vs := by
  induction columns with
  | nil => exact ⟨[], rfl, .nil⟩
  | cons c columns ih =>
    obtain ⟨⟨v, hv, htyped⟩, hrest⟩ := forall_mem_cons.mp h
    obtain ⟨vs, hvs, hall⟩ := ih hrest
    exact ⟨v :: vs, by simp [hv, hvs], .cons htyped hall⟩

theorem splits_record (hnames : (columns.map fun c => c.name).Nodup)
    (hu : catalog.underlying ty = .ok (.record columns)) : Splits fieldsOf catalog.Typed ty
      [(.record (columns.map fun c => c.name), columns.map fun c => c.ty)] := by
  refine splits_single (fun v hv => ?_) fun vs hvs => ?_
  · obtain ⟨fields, hval, -, -, htyped⟩ := typed_record.mp ((underlying_typed hu).1 v hv)
    obtain ⟨vs, hvs, hall⟩ := mapM_lookup htyped
    exact ⟨vs, by simpa [fieldsOf, hval] using hvs, hall⟩
  · obtain ⟨fields, htyped, hlookup⟩ := exists_fields hnames hvs
    obtain ⟨v, hv, hval⟩ := (underlying_typed hu).2 (.record fields)
      (typed_record.mpr ⟨fields, rfl, htyped⟩)
    exact ⟨v, hv, by simpa [fieldsOf, hval] using hlookup⟩

/-- **The constructors of a declared type split its values.** -/
theorem constructorSpecs_splits (hc : catalog.Declared) (hty : ty.Everywhere catalog.IsDeclared)
    (h : constructorSpecs catalog ty = .ok (some specs)) :
    Splits fieldsOf catalog.Typed ty specs := by
  obtain ⟨u, hu, hspecs⟩ := constructorSpecs_eq_ok.mp h
  have hdecl := (underlyingWithin_everywhere hc hty hu).here
  cases u with
  | enum variants =>
    cases hspecs
    exact splits_enum hdecl hu
  | option inner =>
    cases hspecs
    exact splits_option hu
  | record columns =>
    cases hspecs
    exact splits_record hdecl hu
  | tuple items =>
    cases hspecs
    exact splits_tuple hu
  | _ => cases hspecs

/-- The arguments of a constructor of a declared type are declared. -/
theorem constructorSpecs_declared (hc : catalog.Declared) (hty : ty.Everywhere catalog.IsDeclared)
    (h : constructorSpecs catalog ty = .ok (some specs))
    (hspec : spec ∈ specs) : ∀ arg ∈ spec.2, arg.Everywhere catalog.IsDeclared := by
  obtain ⟨u, hu, hspecs⟩ := constructorSpecs_eq_ok.mp h
  have hdecl := underlyingWithin_everywhere hc hty hu
  cases u with
  | enum variants =>
    cases hspecs
    obtain ⟨v, hv, rfl⟩ := mem_map.mp hspec
    exact fun arg harg => hdecl.arg (mem_orderedVariants.mp hv) harg
  | option inner =>
    cases hspecs
    simp only [mem_cons, not_mem_nil, or_false] at hspec
    obtain rfl | rfl := hspec
    · simp
    · simpa using hdecl.option
  | record columns =>
    cases hspecs
    obtain rfl := mem_singleton.mp hspec
    intro arg harg
    obtain ⟨c, hc, rfl⟩ := mem_map.mp harg
    exact hdecl.field hc
  | tuple items =>
    cases hspecs
    obtain rfl := mem_singleton.mp hspec
    exact fun arg harg => hdecl.item harg
  | _ => cases hspecs

/-- The columns below a constructor are declared. -/
theorem declared_append (hc : catalog.Declared) (hty : ty.Everywhere catalog.IsDeclared)
    (h : constructorSpecs catalog ty = .ok (some specs))
    (hspec : spec ∈ specs) {types : List ScalarType}
    (htypes : ∀ t ∈ types, t.Everywhere catalog.IsDeclared) :
    ∀ t ∈ spec.2 ++ types, t.Everywhere catalog.IsDeclared := by
  intro t ht
  obtain ht | ht := mem_append.mp ht
  · exact constructorSpecs_declared hc hty h hspec t ht
  · exact htypes t ht

/-- An opaque type has a value. -/
theorem inhabited_of_specs_none (hc : catalog.Declared)
    (hty : ty.Everywhere catalog.IsDeclared) (h : constructorSpecs catalog ty = .ok none) :
    ∃ v, catalog.Typed ty v := by
  obtain ⟨u, hu, hspecs⟩ := constructorSpecs_eq_ok.mp h
  suffices h : ∃ w, catalog.Typed u w by
    obtain ⟨w, hw⟩ := h
    obtain ⟨v, hv, -⟩ := (underlying_typed hu).2 w hw
    exact ⟨v, hv⟩
  have hdecl := (underlyingWithin_everywhere hc hty hu).here
  cases u with
  | enum | option | record | tuple => cases hspecs
  | ref id => exact absurd rfl (underlyingWithin_ne_ref hu id)
  | named name => exact hdecl.elim
  | _ => exact exists_typed_immediate hdecl trivial

/-! ## The searches -/

theorem isLimit_coverageLimit : IsLimit coverageLimit := rfl

theorem returns_drawUnit (b : ℕ) :
    Answers IsLimit (drawUnit coverageLimit) b fun _ => True := by
  unfold Answers drawUnit
  split
  · exact .error isLimit_coverageLimit
  · exact .ok trivial

/-- The constructors of a declared type are found, unless a limit stops it. -/
theorem constructorSpecs_returns (hc : catalog.Declared) (hty : ty.Everywhere catalog.IsDeclared) :
    Returns IsLimit (constructorSpecs catalog ty) fun specs =>
      constructorSpecs catalog ty = .ok specs := by
  obtain ⟨u, hu⟩ | ⟨e, he, hlimit⟩ := underlyingWithin_returns hc hty (n := MAX_DEPTH)
  · have hspecs := constructorSpecs_eq_ok.mpr ⟨u, hu, rfl⟩
    exact .of_ok hspecs hspecs
  · have hrun : constructorSpecs catalog ty = .error e := by
      simp only [constructorSpecs, underlying, he, error_bind]
    rw [hrun]
    exact .error hlimit

/-- A search over constructors finds an answer exactly when one of them has one. -/
theorem firstSpec_returns {α : Type} {search : ConstructorSpec → StateT ℕ Result (Option α)}
    {Q : ConstructorSpec → Prop}
    (h : ∀ s ∈ specs, ∀ b, Answers IsLimit (search s) b fun found => found.isSome = true ↔ Q s)
    (b : ℕ) : Answers IsLimit (firstSpec search specs) b fun found =>
      found.isSome = true ↔ ∃ s ∈ specs, Q s := by
  induction specs generalizing b with
  | nil => exact .pure (by simp)
  | cons s specs ih =>
    obtain ⟨hs, hrest⟩ := forall_mem_cons.mp h
    refine (hs b).bind fun found d hfound => ?_
    cases found with
    | some answer =>
      have hQ : Q s := hfound.mp rfl
      exact .pure (by simp [hQ])
    | none =>
      have hQ : ¬Q s := fun hQ => by simpa using hfound.mpr hQ
      exact (ih hrest d).mono fun r hr => by simpa [hQ] using hr

section Shapes
variable {types : List ScalarType} {ty : ScalarType} {specs : List ConstructorSpec}
  {matrix : List (List CoveragePattern)}

/-- The rows of a matrix fit the types of its columns. -/
def ShapedMatrix (catalog : Catalog) (matrix : List (List CoveragePattern))
    (types : List ScalarType) : Prop :=
  ∀ row ∈ matrix, Forall₂ (Shaped catalog) types row

theorem shaped_replicate (types : List ScalarType) :
    Forall₂ (Shaped catalog) types (replicate types.length .wildcard) := by
  induction types with
  | nil => exact .nil
  | cons ty types ih => exact .cons (.wildcard ty) ih

variable (h : ShapedMatrix catalog matrix (ty :: types))
include h

theorem ShapedMatrix.headFits (hspecs : constructorSpecs catalog ty = .ok (some specs)) :
    ∀ row ∈ matrix, HeadFits specs row := by
  intro row hrow
  obtain ⟨p, tail, hp, -, rfl⟩ := forall₂_cons_left_iff.mp (h row hrow)
  cases hp with
  | wildcard => trivial
  | constructor hspecs' hspec hargs =>
    obtain rfl : _ = specs := by simpa using hspecs'.symm.trans hspecs
    exact ⟨_, hspec, rfl, hargs.length_eq.symm⟩

theorem ShapedMatrix.wildcards (hspecs : constructorSpecs catalog ty = .ok none) :
    ∀ row ∈ matrix, ∃ tail, row = .wildcard :: tail := by
  intro row hrow
  obtain ⟨p, tail, hp, -, rfl⟩ := forall₂_cons_left_iff.mp (h row hrow)
  cases hp with
  | wildcard => exact ⟨tail, rfl⟩
  | constructor hspecs' => simp [hspecs] at hspecs'

/-- Specialised rows fit the columns of the constructor. -/
theorem ShapedMatrix.specialize (hspecs : constructorSpecs catalog ty = .ok (some specs))
    (hsplits : Splits fieldsOf catalog.Typed ty specs) {spec : ConstructorSpec}
    (hspec : spec ∈ specs) :
    ShapedMatrix catalog (specializeMatrix matrix spec.1 spec.2.length) (spec.2 ++ types) := by
  intro row' hrow'
  obtain ⟨row, hrow, hspecial⟩ := mem_filterMap.mp hrow'
  obtain ⟨p, tail, hp, htail, rfl⟩ := forall₂_cons_left_iff.mp (h row hrow)
  cases hp with
  | wildcard =>
    cases hspecial
    exact rel_append (shaped_replicate spec.2) htail
  | @constructor _ specs' spec' args hspecs' hspec' hargs =>
    obtain rfl : specs' = specs := by simpa using hspecs'.symm.trans hspecs
    simp only [specializeRow] at hspecial
    split at hspecial
    · next heq =>
      cases hspecial
      obtain rfl := hsplits.distinct spec' hspec' spec hspec heq
      exact rel_append hargs htail
    · cases hspecial

theorem ShapedMatrix.default (hspecs : constructorSpecs catalog ty = .ok none) :
    ShapedMatrix catalog (defaultMatrix matrix) types := by
  intro row' hrow'
  obtain ⟨row, hrow, hdefault⟩ := mem_filterMap.mp hrow'
  obtain ⟨tail, rfl⟩ := h.wildcards hspecs row hrow
  cases hdefault
  exact (forall₂_cons.mp (h _ hrow)).2

end Shapes

theorem findSpec_eq (hsplits : Splits fieldsOf catalog.Typed ty specs)
    (hspec : spec ∈ specs) : findSpec spec.1 (some specs) = some spec := by
  have hsome : (specs.find? fun s => s.1 = spec.1).isSome = true :=
    find?_isSome.mpr ⟨spec, hspec, by simp⟩
  obtain ⟨found, hfound⟩ := Option.isSome_iff_exists.mp hsome
  have hsame : found.1 = spec.1 := by simpa using find?_some hfound
  have heq := hsplits.distinct found (mem_of_find?_eq_some hfound) spec hspec hsame
  rw [← heq] at hfound ⊢
  exact hfound

theorem replicate_wildcards (s : ConstructorSpec) (types : List ScalarType) :
    replicate s.2.length (.wildcard : CoveragePattern) ++ replicate types.length .wildcard =
      replicate (s.2 ++ types).length .wildcard := by
  rw [replicate_append_replicate, length_append]

section
variable {α β : Type} {f : ConstructorSpec → StateT ℕ Result (Option α)}
  {g : ConstructorSpec → StateT ℕ Result (Option β)}

theorem isSome_firstSpec_cons (s : ConstructorSpec) :
    Option.isSome <$> firstSpec f (s :: specs) = (do
      let found ← Option.isSome <$> f s
      if found then pure true else Option.isSome <$> firstSpec f specs) := by
  rw [firstSpec, map_bind, bind_map_left]
  refine bind_congr fun found => ?_
  cases found with
  | none => rfl
  | some answer => exact map_pure _ _

theorem isSome_firstSpec_congr (h : ∀ s ∈ specs, Option.isSome <$> f s = Option.isSome <$> g s) :
    Option.isSome <$> firstSpec f specs = Option.isSome <$> firstSpec g specs := by
  induction specs with
  | nil => exact (map_pure _ _).trans (map_pure _ _).symm
  | cons s specs ih =>
    obtain ⟨hs, hrest⟩ := forall_mem_cons.mp h
    rw [isSome_firstSpec_cons, isSome_firstSpec_cons, hs, ih hrest]

end

/-- The second search is the first one for a query of wildcards: it makes the same calls. -/
theorem patternIsUseful_wildcards (n : ℕ) (matrix : List (List CoveragePattern))
    (types : List ScalarType) :
    patternIsUseful catalog n matrix (replicate types.length .wildcard) types =
      Option.isSome <$> uncoveredPatterns catalog n matrix types := by
  induction n generalizing matrix types with
  | zero => rfl
  | succ n ih =>
    unfold patternIsUseful uncoveredPatterns
    rw [map_bind]
    refine bind_congr fun _ => ?_
    rw [length_replicate]
    by_cases hwild : matrix.any (wildRow types.length) = true
    · rw [if_pos hwild, if_pos hwild, map_pure]
      rfl
    · rw [if_neg hwild, if_neg hwild]
      cases types with
      | nil => cases matrix <;> exact (map_pure _ _).symm
      | cons headType tailTypes =>
        simp only [length_cons, replicate_succ, map_bind]
        refine bind_congr fun found => ?_
        cases found with
        | none =>
          simp only [ih, map_bind, map_pure, Option.isSome_map]
          exact map_eq_pure_bind _ _
        | some specs =>
          rw [← map_eq_pure_bind]
          refine isSome_firstSpec_congr fun s _ => ?_
          rw [replicate_wildcards, ih]
          simp only [map_bind, map_pure, Option.isSome_map, bind_map_left]
          refine bind_congr fun witness => ?_
          cases witness <;> rfl

section Search
variable (hc : catalog.Declared)
include hc

/-- **The first search decides usefulness**, unless a limit stops it. -/
theorem patternIsUseful_returns (n : ℕ) {matrix : List (List CoveragePattern)}
    {query : List CoveragePattern} {types : List ScalarType}
    (htypes : ∀ t ∈ types, t.Everywhere catalog.IsDeclared)
    (hmatrix : ShapedMatrix catalog matrix types)
    (hquery : Forall₂ (Shaped catalog) types query) (b : ℕ) :
    Answers IsLimit (patternIsUseful catalog n matrix query types) b fun useful =>
      useful = true ↔ IsUseful catalog matrix query types := by
  induction n generalizing matrix query types b with
  | zero => exact Returns.error isLimit_coverageLimit
  | succ n ih =>
    unfold patternIsUseful
    refine (returns_drawUnit b).bind fun _ d _ => ?_
    split
    · next hwild =>
      obtain ⟨row, hrow, hwild⟩ := any_eq_true.mp hwild
      rw [← hquery.length_eq] at hwild
      exact .pure (by simpa using not_useful_of_wildRow hrow hwild)
    · cases hquery with
      | nil =>
        have hrows : ∀ row ∈ matrix, row = [] := fun row hrow =>
          forall₂_nil_left_iff.mp (hmatrix row hrow)
        exact .pure (by simp [useful_nil hrows])
      | @cons headType p tailTypes query hp hquery =>
        obtain ⟨hhead, htail⟩ := forall_mem_cons.mp htypes
        cases hp with
        | wildcard =>
          refine (Answers.lift (constructorSpecs_returns hc hhead)).bind fun specs d hspecs => ?_
          cases specs with
          | none =>
            exact (ih htail (hmatrix.default hspecs) hquery d).mono fun r hr =>
              hr.trans (useful_default (inhabited_of_specs_none hc hhead hspecs)
                (hmatrix.wildcards hspecs)).symm
          | some specs =>
            have hsplits := constructorSpecs_splits hc hhead hspecs
            refine (firstSpec_returns (Q := fun s => IsUseful catalog
              (specializeMatrix matrix s.1 s.2.length) (replicate s.2.length .wildcard ++ query)
              (s.2 ++ tailTypes)) (fun spec hspec b => ?_) d).bind fun found d hfound => ?_
            · refine (ih (declared_append hc hhead hspecs hspec htail)
                (hmatrix.specialize hspecs hsplits hspec)
                (rel_append (shaped_replicate spec.2) hquery) b).bind fun useful d huseful => ?_
              exact .pure (by rw [← huseful]; cases useful <;> simp)
            · exact .pure (hfound.trans (useful_wildcard hsplits (hmatrix.headFits hspecs)).symm)
        | @constructor _ specs spec arguments hspecs hspec hshaped =>
          have hsplits := constructorSpecs_splits hc hhead hspecs
          refine (Answers.lift (.of_ok hspecs rfl : Returns IsLimit _ (· = some specs))).bind ?_
          rintro _ d rfl
          rw [findSpec_eq hsplits hspec]
          exact (ih (declared_append hc hhead hspecs hspec htail)
            (hmatrix.specialize hspecs hsplits hspec) (rel_append hshaped hquery) d).mono
            fun r hr => hr.trans (useful_constructor hsplits hspec hshaped.length_eq.symm
              (hmatrix.headFits hspecs)).symm

/-- **The second search finds leftover values exactly when there are some**, unless a
limit stops it. -/
theorem uncoveredPatterns_returns (n : ℕ) {matrix : List (List CoveragePattern)}
    {types : List ScalarType} (htypes : ∀ t ∈ types, t.Everywhere catalog.IsDeclared)
    (hmatrix : ShapedMatrix catalog matrix types) (b : ℕ) :
    Answers IsLimit (uncoveredPatterns catalog n matrix types) b fun witness =>
      witness.isSome = true ↔ IsUseful catalog matrix (replicate types.length .wildcard) types := by
  have huseful := patternIsUseful_returns hc n htypes hmatrix (shaped_replicate types) b
  rw [patternIsUseful_wildcards] at huseful
  exact huseful.of_map

end Search

end UnionId.Matching
