import UnionId.Matching.Usefulness

/-!
# What a bound pattern accepts

A pattern that binds against a type has a coverage pattern of that type, and on typed
values the matcher accepts exactly what the coverage pattern covers. When it accepts,
every name of the pattern is bound to a value of its recorded type and all other names
keep their values.
-/
namespace UnionId.Matching

open Lib Catalog List

variable {catalog : Catalog}

/-! ## Outcomes of a matcher -/

/-- The names of the columns get typed values, and no other name changes. -/
def BindsAll (catalog : Catalog) (columns : List Column) (b b' : Fields) : Prop :=
  (∀ c ∈ columns, ∃ v, b'.lookup c.name = some v ∧ catalog.Typed c.ty v) ∧
    ∀ name, name ∉ columns.map (fun c => c.name) → b'.lookup name = b.lookup name

/-- None of the names is bound yet. -/
def Fresh (columns : List Column) (b : Fields) : Prop := ∀ c ∈ columns, b.lookup c.name = none

/-- The matcher succeeds exactly under `P`, and then binds the columns. -/
def Runs (catalog : Catalog) (P : Prop) (columns : List Column) (b : Fields)
    (result : Option Fields) : Prop :=
  (P → ∃ b', result = some b' ∧ BindsAll catalog columns b b') ∧ (¬P → result = none)

namespace Runs

variable {P Q : Prop} {columns others : List Column} {b : Fields} {result : Option Fields}

theorem congr (h : Runs catalog P columns b result) (hPQ : P ↔ Q) :
    Runs catalog Q columns b result := by rwa [← propext hPQ]

theorem done (hP : P) : Runs catalog P [] b (some b) :=
  ⟨fun _ => ⟨b, rfl, by simp, fun _ _ => rfl⟩, fun h => absurd hP h⟩

theorem refuse (hP : ¬P) : Runs catalog P columns b none := ⟨fun h => absurd h hP, fun _ => rfl⟩

/-- Two matchers in sequence, over distinct names. -/
theorem seq {f : Fields → Option Fields} (h : Runs catalog P columns b result)
    (hdisjoint : ∀ c ∈ columns, c.name ∉ others.map fun c => c.name) (hfresh : Fresh others b)
    (hf : ∀ b', Fresh others b' → Runs catalog Q others b' (f b')) :
    Runs catalog (P ∧ Q) (columns ++ others) b (result.bind f) := by
  by_cases hP : P
  · obtain ⟨b', rfl, hbound, hkeep⟩ := h.1 hP
    have hfresh' : Fresh others b' := by
      intro c hc
      rw [hkeep c.name fun hmem => ?_]
      · exact hfresh c hc
      · obtain ⟨c', hc', hname⟩ := mem_map.mp hmem
        exact hdisjoint c' hc' (hname ▸ mem_map_of_mem hc)
    refine ⟨fun hPQ => ?_, fun hPQ => (hf b' hfresh').2 fun hQ => hPQ ⟨hP, hQ⟩⟩
    obtain ⟨b'', hrun, hbound', hkeep'⟩ := (hf b' hfresh').1 hPQ.2
    refine ⟨b'', hrun, fun c hc => ?_, fun name hname => ?_⟩
    · obtain hc | hc := mem_append.mp hc
      · rw [hkeep' c.name (hdisjoint c hc)]
        exact hbound c hc
      · exact hbound' c hc
    · rw [map_append, mem_append, not_or] at hname
      rw [hkeep' name hname.2, hkeep name hname.1]
  · rw [h.2 hP]
    exact refuse fun hPQ => hP hPQ.1

end Runs

/-! ## Names of the parts -/

variable {all : List Column} {ty : ScalarType} {source : MatchSource} {name displayName : String}
  {tag : MatchTag} {args : List ScalarType} {α β : Type} {rest : Bool}

theorem addBindings_eq_ok {seen bindings : List Column}
    (hseen : (seen.map fun c => c.name).Nodup) (h : addBindings seen bindings = .ok all) :
    all = seen ++ bindings ∧ (all.map fun c => c.name).Nodup := by
  induction bindings generalizing seen with
  | nil =>
    cases h
    exact ⟨by simp, hseen⟩
  | cons c bindings ih =>
    simp only [addBindings] at h
    obtain ⟨hfresh, h⟩ := of_refused h
    have hnodup : ((seen ++ [c]).map fun c => c.name).Nodup := by
      rw [map_append, map_singleton]
      exact nodup_append.mpr ⟨hseen, by simp, fun a ha b hb heq =>
        hfresh (mem_singleton.mp hb ▸ heq ▸ ha)⟩
    obtain ⟨rfl, hall⟩ := ih hnodup h
    exact ⟨by simp, hall⟩

theorem combinePatterns_eq_ok {infos : List (List Column)} (h : combinePatterns infos = .ok all) :
    all = infos.flatten ∧ (all.map fun c => c.name).Nodup := by
  suffices hgen : ∀ seen : List Column, (seen.map fun c => c.name).Nodup →
      infos.foldlM addBindings seen = .ok all →
        all = seen ++ infos.flatten ∧ (all.map fun c => c.name).Nodup by
    simpa using hgen [] (by simp) h
  clear h
  induction infos with
  | nil =>
    intro seen hseen h
    cases h
    exact ⟨by simp, hseen⟩
  | cons info infos ih =>
    intro seen hseen h
    rw [foldlM_cons, bind_eq_ok] at h
    obtain ⟨mid, hmid, h⟩ := h
    obtain ⟨rfl, hnodup⟩ := addBindings_eq_ok hseen hmid
    obtain ⟨rfl, hall⟩ := ih _ hnodup h
    exact ⟨by simp, hall⟩

/-! ## One pattern -/

/-- The pattern has a coverage pattern that fits the type, and it accepts the typed
values which that covers. -/
def Bindable (catalog : Catalog) (context : String) (ty : ScalarType) (pattern : MatchPattern)
    (columns : List Column) : Prop :=
  (columns.map fun c => c.name).Nodup ∧
    ∃ coverage, coveragePattern catalog context pattern ty = .ok coverage ∧
      Shaped catalog ty coverage ∧ ∀ v, catalog.Typed ty v → ∀ b, Fresh columns b →
        Runs catalog (Covers fieldsOf coverage v) columns b (matchValuePattern pattern v b)

/-- The same for the arguments of a constructor. -/
def BindableAll (catalog : Catalog) (types : List ScalarType)
    (coverages : Result (List CoveragePattern)) (run : List Value → Fields → Option Fields)
    (columns : List Column) : Prop :=
  (columns.map fun c => c.name).Nodup ∧
    ∃ values, coverages = .ok values ∧ Forall₂ (Shaped catalog) types values ∧
      ∀ vs, Forall₂ catalog.Typed types vs → ∀ b, Fresh columns b →
        Runs catalog (CoversAll fieldsOf values vs) columns b (run vs b)

theorem bindable_wildcard (context : String) (ty : ScalarType) :
    Bindable catalog context ty .wildcard [] :=
  ⟨by simp, .wildcard, rfl, .wildcard ty, fun v _ b _ => Runs.done (covers_wildcard.mpr trivial)⟩

theorem bindable_binding (context : String) (ty : ScalarType) (name : String) :
    Bindable catalog context ty (.binding name) [{ name, ty, default := none, id := 0 }] := by
  refine ⟨by simp, .wildcard, rfl, .wildcard ty, fun v hv b hb => ?_⟩
  have hnone : b.lookup name = none := hb _ (mem_singleton_self _)
  refine ⟨fun _ => ⟨assocInsert name v b, by simp [matchValuePattern, hnone], ?_, ?_⟩,
    fun h => absurd (covers_wildcard.mpr trivial) h⟩
  · simpa using hv
  · intro other hother
    have hne : other ≠ name := by simpa using hother
    rw [lookup_assocInsert, if_neg hne]

/-! ## Constructors -/

theorem matchValuePattern_constructor (name displayName : String) (payload : MatchPayload)
    (tag : MatchTag) (v : Value) (b : Fields) :
    matchValuePattern (.constructor name payload (some tag)) v b =
      (fieldsOf (tag.constructor displayName) v).bind fun args => matchPayload payload args b := by
  unfold matchValuePattern fieldsOf
  cases hv : v.unwrapped with
  | enum variant args id =>
    cases tag with
    | variant expected => by_cases h : expected = id <;> simp [MatchTag.constructor, hv, h]
    | none | some => simp [MatchTag.constructor, hv]
  | option o => cases tag <;> cases o <;> simp [MatchTag.constructor, hv]
  | _ => cases tag <;> simp [MatchTag.constructor, hv]

variable {context : String} {columns definitions : List Column}
  {fields : List (String × MatchPattern)} {expected : ScalarType}

/-- A constructor that resolves is one of the constructors of its type, whatever the
context. -/
theorem resolveConstructor_spec (hsource : matchSource catalog ty context = .ok source)
    (h : resolveConstructor catalog source context name = .ok (tag, args, displayName)) :
    (∀ context', matchSource catalog ty context' = .ok source ∧
      resolveConstructor catalog source context' name = .ok (tag, args, displayName)) ∧
    ∃ specs, constructorSpecs catalog ty = .ok (some specs) ∧
      (tag.constructor displayName, args) ∈ specs := by
  obtain ⟨u, hu, hsource⟩ := of_bind hsource
  have hcontext : ∀ context', matchSource catalog ty context' = .ok source := by
    intro context'
    simp only [matchSource, hu, ok_bind]
    cases u with
    | enum | option => exact hsource
    | _ => cases hsource
  cases u with
  | enum variants =>
    cases hsource
    obtain ⟨variantName, hname, h⟩ := of_bind h
    cases hfind : variants.find? fun variant => variant.name = variantName with
    | none =>
      rw [hfind] at h
      cases h
    | some variant =>
      rw [hfind] at h
      cases h
      have hname' : ∀ context', unqualified catalog variants context' name = .ok variantName := by
        intro context'
        unfold unqualified at hname ⊢
        cases hsplit : rsplitOnce '.' name with
        | none => rwa [hsplit] at hname
        | some parts =>
          rw [hsplit] at hname
          obtain ⟨fits, hfits, hname⟩ := of_bind hname
          simp only [hfits, ok_bind]
          cases fits with
          | false => cases hname
          | true => exact hname
      refine ⟨fun context' => ⟨hcontext context', ?_⟩, _, constructorSpecs_eq_ok.mpr ⟨_, hu, rfl⟩,
        mem_map.mpr ⟨variant, mem_orderedVariants.mpr (mem_of_find?_eq_some hfind), rfl⟩⟩
      simp only [resolveConstructor, hname' context', ok_bind, hfind, pure_eq_ok]
  | option inner =>
    cases hsource
    refine ⟨fun context' => ⟨hcontext context', ?_⟩, _, constructorSpecs_eq_ok.mpr ⟨_, hu, rfl⟩, ?_⟩
    · simp only [resolveConstructor] at h ⊢
      split at h
      · next hnone => rwa [if_pos hnone]
      · next hnone =>
        split at h
        · next hsome => rwa [if_neg hnone, if_pos hsome]
        · cases h
    · simp only [resolveConstructor] at h
      split at h
      · cases h
        simp [MatchTag.constructor]
      · obtain ⟨-, h⟩ := of_required h
        cases h
        simp [MatchTag.constructor]
  | _ => cases hsource

theorem bindable_constructor (hc : catalog.Declared)
    (hty : ty.Everywhere catalog.IsDeclared) {payload : MatchPayload}
    (hsource : matchSource catalog ty context = .ok source)
    (h : resolveConstructor catalog source context name = .ok (tag, args, displayName))
    {context' : String} (hpayload : BindableAll catalog args
      (coveragePayload catalog context' payload args) (matchPayload payload) columns) :
    Bindable catalog context' ty (.constructor name payload (some tag)) columns := by
  obtain ⟨hcontext, specs, hspecs, hspec⟩ := resolveConstructor_spec hsource h
  obtain ⟨hnodup, values, hvalues, hshaped, hruns⟩ := hpayload
  refine ⟨hnodup, .constructor (tag.constructor displayName) values, ?_,
    .constructor hspecs hspec hshaped, fun v hv b hb => ?_⟩
  · simp only [coveragePattern, hcontext context', ok_bind, hvalues, pure_eq_ok]
  · rw [matchValuePattern_constructor name displayName]
    have hsplits := constructorSpecs_splits hc hty hspecs
    cases hparts : fieldsOf (tag.constructor displayName) v with
    | none => exact .refuse fun hcovers => by simp [covers_constructor, hparts] at hcovers
    | some vs =>
      exact (hruns vs (hsplits.typed_parts hv hspec hparts) b hb).congr
        (by simp [covers_constructor, hparts])

/-! ## Positions -/

theorem fresh_append {others : List Column} {b : Fields}
    (h : Fresh (columns ++ others) b) : Fresh columns b ∧ Fresh others b :=
  ⟨fun c hc => h c (mem_append_left _ hc), fun c hc => h c (mem_append_right _ hc)⟩

theorem names_append {others : List Column} (h : ((columns ++ others).map fun c => c.name).Nodup) :
    (others.map fun c => c.name).Nodup ∧
      ∀ c ∈ columns, c.name ∉ others.map fun c => c.name := by
  rw [map_append, nodup_append] at h
  exact ⟨h.2.1, fun c hc hmem => h.2.2 _ (mem_map_of_mem hc) _ hmem rfl⟩

/-- Patterns bound position by position. -/
inductive BindableItems (catalog : Catalog) (context : String) :
    List ScalarType → List MatchPattern → List (List Column) → Prop
  | nil : BindableItems catalog context [] [] []
  | cons {ty : ScalarType} {types : List ScalarType} {p : MatchPattern} {ps : List MatchPattern}
      {info : List Column} {infos : List (List Column)} (h : Bindable catalog context ty p info)
      (hrest : BindableItems catalog context types ps infos) :
      BindableItems catalog context (ty :: types) (p :: ps) (info :: infos)

theorem BindableItems.bindableAll {types : List ScalarType}
    {ps : List MatchPattern} {infos : List (List Column)}
    (h : BindableItems catalog context types ps infos)
    (hnodup : (infos.flatten.map fun c => c.name).Nodup) :
    BindableAll catalog types (coverageItems catalog context ps types) (matchItems ps)
      infos.flatten := by
  refine ⟨hnodup, ?_⟩
  induction h with
  | nil =>
    refine ⟨[], rfl, .nil, fun vs hvs b _ => ?_⟩
    obtain rfl := forall₂_nil_left_iff.mp hvs
    exact .done (coversAll_nil.mpr rfl)
  | @cons ty types p ps info infos h _ ih =>
    rw [flatten_cons] at hnodup
    obtain ⟨hrest, hdisjoint⟩ := names_append hnodup
    obtain ⟨-, value, hvalue, hshaped, hruns⟩ := h
    obtain ⟨values, hvalues, hall, hrunsAll⟩ := ih hrest
    refine ⟨value :: values, by simp [coverageItems, hvalue, hvalues], .cons hshaped hall,
      fun vs hvs b hb => ?_⟩
    obtain ⟨v, rest, hv, hrest, rfl⟩ := forall₂_cons_left_iff.mp hvs
    obtain ⟨hfresh, hfresh'⟩ := fresh_append hb
    exact ((hruns v hv b hfresh).seq hdisjoint hfresh' fun b' hb' =>
      hrunsAll rest hrest b' hb').congr
      coversAll_cons.symm

/-! ## Fields -/

/-- A field of a record pattern, bound against its declaration. -/
def BindableField (catalog : Catalog) (context : String) (definitions : List Column)
    (field : String × MatchPattern) (info : String × List Column) : Prop :=
  info.1 = field.1 ∧ ∃ d, findColumn definitions field.1 = some d ∧
    Bindable catalog context d.ty field.2 info.2

theorem findColumn_of_mem (hnames : (columns.map fun c => c.name).Nodup)
    {d : Column} (hd : d ∈ columns) : findColumn columns d.name = some d := by
  have hsome : (columns.find? fun c => c.name = d.name).isSome = true :=
    find?_isSome.mpr ⟨d, hd, by simp⟩
  obtain ⟨found, hfound⟩ := Option.isSome_iff_exists.mp hsome
  obtain ⟨hmem, hname⟩ := findColumn_eq_some hfound
  rwa [inj_on_of_nodup_map hnames hmem hd hname] at hfound

/-- The field of a record pattern accepts the value under its name. -/
def FieldCovers (catalog : Catalog) (context : String) (definitions : List Column)
    (record : Fields) (field : String × MatchPattern) : Prop :=
  ∀ d coverage v, findColumn definitions field.1 = some d →
    coveragePattern catalog context field.2 d.ty = .ok coverage →
      record.lookup field.1 = some v → Covers fieldsOf coverage v

theorem matchFields_runs {record : Fields} (hrecord : catalog.TypedFields definitions record)
    {infos : List (String × List Column)}
    (h : Forall₂ (BindableField catalog context definitions) fields infos)
    (hnodup : ((infos.map Prod.snd).flatten.map fun c => c.name).Nodup) {b : Fields}
    (hb : Fresh (infos.map Prod.snd).flatten b) :
    Runs catalog (∀ f ∈ fields, FieldCovers catalog context definitions record f)
      (infos.map Prod.snd).flatten b (matchFields fields record b) := by
  induction h generalizing b with
  | nil => exact .done (by simp)
  | @cons field info fields infos h _ ih =>
    obtain ⟨-, d, hd, -, coverage, hcoverage, -, hruns⟩ := h
    rw [map_cons, flatten_cons] at hnodup hb ⊢
    obtain ⟨hrest, hdisjoint⟩ := names_append hnodup
    obtain ⟨hfresh, hfresh'⟩ := fresh_append hb
    obtain ⟨hmem, hname⟩ := findColumn_eq_some hd
    obtain ⟨v, hv, htyped⟩ := hrecord.2.2 d hmem
    rw [hname] at hv
    have hone : FieldCovers catalog context definitions record field ↔
        Covers fieldsOf coverage v := by
      refine ⟨fun h => h d coverage v hd hcoverage hv, fun h d' coverage' v' hd' hc' hv' => ?_⟩
      cases hd.symm.trans hd'
      cases hcoverage.symm.trans hc'
      cases hv.symm.trans hv'
      exact h
    have hrun := (hruns v htyped b hfresh).seq hdisjoint hfresh' fun b' hb' => ih hrest hb'
    simp only [matchFields, hv, forall_mem_cons, hone]
    exact hrun

theorem exists_of_mem_left {R : α → β → Prop} {l : List α} {r : List β}
    (h : Forall₂ R l r) {a : α} (ha : a ∈ l) : ∃ b ∈ r, R a b :=
  exists_of_mem_right h.flip ha

theorem exists_forall₂ {R : α → β → Prop} {l : List α}
    (h : ∀ a ∈ l, ∃ b, R a b) : ∃ r, Forall₂ R l r := by
  induction l with
  | nil => exact ⟨[], .nil⟩
  | cons a l ih =>
    obtain ⟨⟨b, hb⟩, hl⟩ := forall_mem_cons.mp h
    obtain ⟨r, hr⟩ := ih hl
    exact ⟨b :: r, .cons hb hr⟩

theorem lookup_coverageFields (context name : String) (fields : List (String × MatchPattern)) :
    (coverageFields catalog context fields).lookup name =
      (fields.lookup name).map (coveragePattern catalog context) := by
  induction fields with
  | nil => rfl
  | cons field fields ih =>
    obtain ⟨key, pattern⟩ := field
    by_cases h : name = key
    · simp [coverageFields, h]
    · simp [coverageFields, lookup_cons, beq_eq_false_iff_ne.mpr h, ih]

def fieldCoverage (catalog : Catalog) (context : String) (fields : List (String × MatchPattern))
    (definition : Column) : Result CoveragePattern :=
  match (coverageFields catalog context fields).lookup definition.name with
  | none => pure .wildcard
  | some coverage => coverage definition.ty

theorem coversAll_columns {f : Column → Result CoveragePattern}
    {g : Column → Option Value} {values : List CoveragePattern} {vs : List Value}
    (hf : Forall₂ (fun d value => f d = .ok value) definitions values)
    (hg : Forall₂ (fun d v => g d = some v) definitions vs) :
    CoversAll fieldsOf values vs ↔ ∀ d ∈ definitions, ∀ value v, f d = .ok value → g d = some v →
      Covers fieldsOf value v := by
  induction hf generalizing vs with
  | nil =>
    obtain rfl := forall₂_nil_left_iff.mp hg
    simp
  | cons hvalue _ ih =>
    obtain ⟨v, rest, hv, hrest, rfl⟩ := forall₂_cons_left_iff.mp hg
    rw [coversAll_cons, forall_mem_cons, ih hrest]
    refine and_congr_left' ⟨fun h value' v' hvalue' hv' => ?_, fun h => h _ _ hvalue hv⟩
    cases hvalue.symm.trans hvalue'
    cases hv.symm.trans hv'
    exact h

section Record
variable {context : String} {expected : ScalarType} {definitions : List Column}
  {fields : List (String × MatchPattern)} {infos : List (String × List Column)}
  (hnames : (definitions.map fun c => c.name).Nodup) (hfields : (fields.map Prod.fst).Nodup)
  (h : Forall₂ (BindableField catalog context definitions) fields infos)
include hnames hfields h

/-- Every declared field has a coverage that fits. -/
theorem fieldCoverage_shaped {d : Column} (hd : d ∈ definitions) :
    ∃ value, fieldCoverage catalog context fields d = .ok value ∧ Shaped catalog d.ty value := by
  unfold fieldCoverage
  rw [lookup_coverageFields]
  cases hlook : fields.lookup d.name with
  | none => exact ⟨.wildcard, rfl, .wildcard _⟩
  | some pattern =>
    have hmem := (lookup_eq_some_iff_mem hfields).mp hlook
    obtain ⟨info, -, -, d', hd', -, value, hvalue, hshaped, -⟩ := exists_of_mem_left h hmem
    cases (findColumn_of_mem hnames hd).symm.trans hd'
    exact ⟨value, hvalue, hshaped⟩

omit h in
/-- A record is covered when all mentioned fields are. -/
theorem fieldCoverage_covers {record : Fields} :
    (∀ d ∈ definitions, ∀ value v, fieldCoverage catalog context fields d = .ok value →
      record.lookup d.name = some v → Covers fieldsOf value v) ↔
        ∀ f ∈ fields, FieldCovers catalog context definitions record f := by
  constructor
  · intro hall field hfield d value v hd hvalue hv
    obtain ⟨hmem, hname⟩ := findColumn_eq_some hd
    refine hall d hmem value v ?_ (hname ▸ hv)
    unfold fieldCoverage
    rw [lookup_coverageFields, hname, (lookup_eq_some_iff_mem hfields).mpr hfield]
    exact hvalue
  · intro hall d hd value v hvalue hv
    unfold fieldCoverage at hvalue
    rw [lookup_coverageFields] at hvalue
    cases hlook : fields.lookup d.name with
    | none =>
      rw [hlook] at hvalue
      cases hvalue
      exact covers_wildcard.mpr trivial
    | some pattern =>
      rw [hlook] at hvalue
      exact hall _ ((lookup_eq_some_iff_mem hfields).mp hlook) d value v
        (findColumn_of_mem hnames hd)
        hvalue hv

theorem coverageRecordPattern_spec (hu : catalog.underlying expected = .ok (.record definitions)) :
    ∃ coverage, coverageRecordPattern catalog context expected
        (coverageFields catalog context fields) = .ok coverage ∧
      Shaped catalog expected coverage ∧ ∀ v, catalog.Typed expected v →
        ∃ record, v.unwrapped = .record record ∧ catalog.TypedFields definitions record ∧
          (Covers fieldsOf coverage v ↔
            ∀ f ∈ fields, FieldCovers catalog context definitions record f) := by
  have hall : ∀ d ∈ definitions, ∃ value, fieldCoverage catalog context fields d = .ok value ∧
      Shaped catalog d.ty value := fun d hd => fieldCoverage_shaped hnames hfields h hd
  obtain ⟨values, hvalues⟩ : ∃ values, Forall₂ (fun d value =>
      fieldCoverage catalog context fields d = .ok value ∧ Shaped catalog d.ty value)
        definitions values := exists_forall₂ hall
  have hrun := hvalues.imp fun _ _ h => h.1
  refine ⟨.constructor (.record (definitions.map fun field => field.name)) values, ?_, ?_,
    fun v hv => ?_⟩
  · have hmapM : definitions.mapM (fieldCoverage catalog context fields) = .ok values :=
      mapM_eq_ok_iff.mpr hrun
    simp only [coverageRecordPattern, hu, ok_bind]
    change (definitions.mapM (fieldCoverage catalog context fields) >>= fun values => pure _) = _
    rw [hmapM]
    rfl
  · exact .constructor (constructorSpecs_eq_ok.mpr ⟨_, hu, rfl⟩)
      (mem_singleton_self _)
      (forall₂_map_left_iff.mpr (hvalues.imp fun _ _ h => h.2))
  · obtain ⟨record, hval, hrecord⟩ := typed_record.mp ((underlying_typed hu).1 v hv)
    refine ⟨record, hval, hrecord, ?_⟩
    obtain ⟨vs, hvs, -⟩ := mapM_lookup hrecord.2.2
    have hlook := forall₂_map_left_iff.mp (mapM_eq_some_iff.mp hvs)
    have hparts : fieldsOf (.record (definitions.map fun field => field.name)) v = some vs := by
      simpa [fieldsOf, hval] using hvs
    rw [← fieldCoverage_covers hnames hfields, ← coversAll_columns hrun hlook,
      covers_constructor, hparts]
    simp

end Record

/-! ## Binding -/

/-- The fields of a record pattern, after those already `seen`, have distinct names and
are bound one by one. -/
def BindableFields (catalog : Catalog) (definitions : List Column)
    (seen : List (String × List Column)) (fields : List (String × MatchPattern))
    (columns : List Column) : Prop :=
  ∃ infos, columns = ((seen ++ infos).map Prod.snd).flatten ∧
    (columns.map fun c => c.name).Nodup ∧ (seen.map Prod.fst ++ fields.map Prod.fst).Nodup ∧
      ∀ context, Forall₂ (BindableField catalog context definitions) fields infos

section
variable (hc : catalog.Declared) (hty : expected.Everywhere catalog.IsDeclared)
  (hu : catalog.underlying expected = .ok (.record definitions))
  (h : BindableFields catalog definitions [] fields columns) (context : String)
include hc hty hu h

theorem BindableFields.record :
    Bindable catalog context expected (.record fields rest) columns := by
  obtain ⟨infos, rfl, hnodup, hfields, hall⟩ := h
  replace hall := hall context
  have hnames := (underlyingWithin_everywhere hc hty hu).here
  obtain ⟨coverage, hcoverage, hshaped, hcovers⟩ :=
    coverageRecordPattern_spec hnames hfields hall hu
  refine ⟨hnodup, coverage, by simpa [coveragePattern] using hcoverage, hshaped,
    fun v hv b hb => ?_⟩
  obtain ⟨record, hval, hrecord, hiff⟩ := hcovers v hv
  simp only [matchValuePattern, hval]
  exact (matchFields_runs hrecord hall hnodup hb).congr hiff.symm

theorem BindableFields.payload :
    BindableAll catalog [expected]
      (coveragePayload catalog context (.record fields rest) [expected])
      (matchPayload (.record fields rest)) columns := by
  obtain ⟨hnodup, coverage, hcoverage, hshaped, hruns⟩ :
      Bindable catalog context expected (.record fields rest) columns := h.record hc hty hu context
  refine ⟨hnodup, [coverage], bind_eq_ok.mpr ⟨coverage, ?_, rfl⟩, .cons hshaped .nil,
    fun vs hvs b hb => ?_⟩
  · simpa [coveragePattern] using hcoverage
  · obtain ⟨v, vs, hv, hrest, rfl⟩ := forall₂_cons_left_iff.mp hvs
    obtain rfl := forall₂_nil_left_iff.mp hrest
    exact (hruns v hv b hb).congr (by simp)

end

theorem bindable_tuple {items : List ScalarType}
    (hu : catalog.underlying expected = .ok (.tuple items)) {patterns : List MatchPattern}
    (h : BindableAll catalog items (coverageItems catalog context patterns items)
      (matchItems patterns) columns) :
    Bindable catalog context expected (.tuple patterns) columns := by
  obtain ⟨hnodup, values, hvalues, hshaped, hruns⟩ := h
  refine ⟨hnodup, .constructor .tuple values, by simp [coveragePattern, hu, hvalues], ?_,
    fun v hv b hb => ?_⟩
  · exact .constructor (constructorSpecs_eq_ok.mpr ⟨_, hu, rfl⟩)
      (mem_singleton_self _) hshaped
  · obtain ⟨vs, hval, hvs⟩ := typed_tuple.mp ((underlying_typed hu).1 v hv)
    simp only [matchValuePattern, hval]
    exact (hruns vs hvs b hb).congr (by simp [covers_constructor, fieldsOf, hval])

mutual
/-- **A pattern that binds accepts what its coverage pattern covers.** -/
theorem bindNestedPattern_bindable (hc : catalog.Declared) :
    (p : MatchPattern) → ∀ {ty : ScalarType} {label : String}
    {p' : MatchPattern} {columns : List Column}, ty.Everywhere catalog.IsDeclared →
    bindNestedPattern catalog p ty label = .ok (p', columns) → ∀ context,
    Bindable catalog context ty p' columns
  | .wildcard, ty, label, p', columns, _, h, context => by
    cases h
    exact bindable_wildcard context ty
  | .binding name, ty, label, p', columns, _, h, context => by
    cases h
    exact bindable_binding context ty name
  | .constructor name payload tag, ty, label, p', columns, hty, h, context => by
    obtain ⟨source, hsource, ⟨tag', args, displayName⟩, hresolve, h⟩ := of_bind₂ h
    obtain ⟨⟨payload', columns'⟩, hpayload, h⟩ := of_bind h
    cases h
    obtain ⟨-, specs, hspecs, hspec⟩ := resolveConstructor_spec hsource hresolve
    have hargs := constructorSpecs_declared hc hty hspecs hspec
    exact bindable_constructor hc hty hsource hresolve
      (bindPayload_bindable hc payload hargs hpayload context)
  | .record fields rest, ty, label, p', columns, hty, h, context => by
    obtain ⟨u, hu, h⟩ := of_bind h
    cases u with
    | record definitions =>
      obtain ⟨⟨fields', columns'⟩, hfields, h⟩ := of_bind h
      cases h
      have hdecl := underlyingWithin_everywhere hc hty hu
      exact (bindRecordFields_bindable hc fields (fun c hc =>
        hdecl.field hc) (by simp) hfields).record hc hty hu
        context
    | _ => cases h
  | .tuple patterns, ty, label, p', columns, hty, h, context => by
    obtain ⟨u, hu, h⟩ := of_bind h
    cases u with
    | tuple items =>
      simp only at h
      obtain ⟨hlen, h⟩ := of_refused h
      obtain ⟨⟨patterns', infos⟩, hitems, columns', hcombine, h⟩ := of_bind₂ h
      cases h
      have hdecl := underlyingWithin_everywhere hc hty hu
      obtain ⟨rfl, hnodup⟩ := combinePatterns_eq_ok hcombine
      exact bindable_tuple hu ((bindItems_bindable hc patterns (fun t ht => hdecl.item ht)
        (not_not.mp hlen) hitems context).bindableAll hnodup)
    | _ => cases h

theorem bindPayload_bindable (hc : catalog.Declared) :
    (payload : PayloadOf MatchPattern) → ∀ {args : List ScalarType}
    {label : String} {payload' : PayloadOf MatchPattern} {columns : List Column},
    (∀ t ∈ args, t.Everywhere catalog.IsDeclared) →
    bindPayload catalog payload label args = .ok (payload', columns) → ∀ context,
    BindableAll catalog args (coveragePayload catalog context payload' args) (matchPayload payload')
      columns
  | .unit, args, label, payload', columns, _, h, context => by
    simp only [bindPayload] at h
    obtain ⟨hempty, h⟩ := of_required h
    cases h
    obtain rfl := List.isEmpty_iff.mp hempty
    refine ⟨by simp, [], rfl, .nil, fun vs hvs b _ => ?_⟩
    obtain rfl := forall₂_nil_left_iff.mp hvs
    exact .done (coversAll_nil.mpr rfl)
  | .record fields rest, args, label, payload', columns, hargs, h, context => by
    match args, hargs, h with
    | [], _, h => cases h
    | _ :: _ :: _, _, h => cases h
    | [expected], hargs, h =>
      have hty := hargs expected (mem_singleton_self _)
      obtain ⟨u, hu, h⟩ := of_bind h
      cases u with
      | record definitions =>
        obtain ⟨⟨fields', columns'⟩, hfields, h⟩ := of_bind h
        cases h
        have hdecl := underlyingWithin_everywhere hc hty hu
        exact (bindRecordFields_bindable hc fields (fun c hc =>
          hdecl.field hc) (by simp) hfields).payload hc hty
          hu context
      | _ => cases h
  | .positional patterns, args, label, payload', columns, hargs, h, context => by
    simp only [bindPayload] at h
    obtain ⟨hlen, h⟩ := of_refused h
    obtain ⟨⟨patterns', infos⟩, hitems, columns', hcombine, h⟩ := of_bind₂ h
    cases h
    obtain ⟨rfl, hnodup⟩ := combinePatterns_eq_ok hcombine
    exact (bindItems_bindable hc patterns hargs (not_not.mp hlen) hitems context).bindableAll hnodup

theorem bindItems_bindable (hc : catalog.Declared) :
    (patterns : List MatchPattern) → ∀ {types : List ScalarType}
    {label : ℕ → String} {index : ℕ} {patterns' : List MatchPattern} {infos : List (List Column)},
    (∀ t ∈ types, t.Everywhere catalog.IsDeclared) → patterns.length = types.length →
    bindItems catalog patterns types label index = .ok (patterns', infos) → ∀ context,
    BindableItems catalog context types patterns' infos
  | [], types, label, index, patterns', infos, _, hlen, h, context => by
    obtain rfl : types = [] := length_eq_zero_iff.mp hlen.symm
    cases h
    exact .nil
  | pattern :: patterns, types, label, index, patterns', infos, htypes, hlen, h, context => by
    match types, htypes, hlen, h with
    | ty :: types, htypes, hlen, h =>
      obtain ⟨hty, htypes⟩ := forall_mem_cons.mp htypes
      obtain ⟨⟨pattern', columns⟩, hpattern, ⟨rest, infos'⟩, hrest, h⟩ := of_bind₂ h
      cases h
      exact .cons (bindNestedPattern_bindable hc pattern hty hpattern context)
        (bindItems_bindable hc patterns htypes (Nat.succ.inj hlen) hrest context)

theorem bindRecordFields_bindable (hc : catalog.Declared) :
    (fields : List (String × MatchPattern)) →
    ∀ {definitions : List Column} {rest : Bool} {label : String} {inPayload : Bool}
    {infos : List (String × List Column)} {fields' : List (String × MatchPattern)}
    {columns : List Column}, (∀ c ∈ definitions, c.ty.Everywhere catalog.IsDeclared) →
    (infos.map Prod.fst).Nodup →
    bindRecordFields catalog fields definitions rest label inPayload infos =
      .ok (fields', columns) →
    BindableFields catalog definitions infos fields' columns
  | [], definitions, rest, label, inPayload, infos, fields', columns, _, hseen, h => by
    obtain ⟨_, -, columns', hcombine, h⟩ := of_bind₂ h
    cases h
    obtain ⟨rfl, hnodup⟩ := combinePatterns_eq_ok hcombine
    exact ⟨[], by simp, hnodup, by simpa using hseen, fun _ => .nil⟩
  | (field, pattern) :: fields, definitions, rest, label, inPayload, infos, fields', columns, hd,
      hseen, h => by
    simp only [bindRecordFields] at h
    obtain ⟨hfresh, h⟩ := of_refused h
    split at h
    · cases h
    · next d hfind =>
      obtain ⟨⟨pattern', info⟩, hpattern, ⟨rest', columns'⟩, hrest, h⟩ := of_bind₂ h
      cases h
      have hseen' : ((infos ++ [(field, info)]).map Prod.fst).Nodup := by
        rw [map_append, map_singleton]
        refine nodup_append.mpr ⟨hseen, by simp, fun a ha b hb heq => hfresh ?_⟩
        rwa [heq, mem_singleton.mp hb] at ha
      obtain ⟨more, rfl, hnodup, hnames, hall⟩ :=
        bindRecordFields_bindable hc fields hd hseen' hrest
      refine ⟨(field, info) :: more, by simp, hnodup, by simpa using hnames, fun context => ?_⟩
      exact .cons ⟨rfl, d, hfind, bindNestedPattern_bindable hc pattern
        (hd d (findColumn_eq_some hfind).1) hpattern context⟩ (hall context)
end

end UnionId.Matching
