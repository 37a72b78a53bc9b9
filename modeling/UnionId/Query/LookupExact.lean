import UnionId.Db.IndexInvariant
import UnionId.Query.Lookup
import UnionId.Query.PredicateSound
import UnionId.Query.SameType
import UnionId.Query.StreamingExact

/-!
# Lookups are exact

The query of a driver row filters by its key. Every index that starts with the target key
can serve it, and the planner always finds one. Its bounds hold the keys of all matching
rows, each hit is filtered again, and the reader stops one row behind the limit. So a
driver row gets all matching rows, or there are more of them than the limit.

## Main results

* `planAccess_lookup` — the plan of the query of one driver row.
* `queryFrom_lookup` — its response.
* `applyLookup_exact` — the rows that a lookup attaches.
-/
namespace UnionId

open Lib Catalog OrderedKey List

/-! ## Binding -/

section Binding
variable {catalog : Catalog} {schema : List Column} {column : String} {ty : ScalarType}
  {key key' : Value}

def keyFilter (column : String) (key : Value) (ty : ScalarType) : BoolExpression :=
  .compare (.reference column) .eq (.literal key) (some ty)

/-- A literal takes the type of the field it is compared with. -/
theorem bind_keyFilter [Builtins] (hty : catalog.fieldType schema column = .ok ty)
    (hwf : ty.WellFormed) (hkey : catalog.coerce key ty "expression literal" = .ok key') :
    Expression.bind catalog schema (.compare (.reference column) .eq (.literal key) none) =
      .ok (keyFilter column key' ty) := by
  have hsame := sameType_self hwf
  simp [Expression.bind, bindInScope, bindCompare, inferScalar, bindScalar, referenceType, hty,
    orInferred, ScalarExpression.isConstant, requireExpected, requireSameOperands, requireOrderable,
    hsame, hkey, keyFilter]

theorem orderable_of_hasType {n : ℕ} {v : Value} (h : catalog.HasType n ty v) :
    orderable catalog ty = .ok true := by
  cases n with
  | zero => cases h
  | succ n =>
    cases ty with
    | ref id =>
      obtain ⟨_, definition, -, hdef, -⟩ := h
      simp [orderable, hdef]
    | named name => cases h
    | _ => rfl

theorem evaluate_keyFilter [Builtins] {row : Fields} {x : Value} (hx : rowField row column = some x)
    (b : ℕ) : evaluate catalog row (keyFilter column key ty) b = .ok (x.cmpEq key, b) := by
  simp only [keyFilter, evaluate, evaluateResolved, evaluateScalar, hx, run_bind, run_pure, ok_bind]
  rfl

end Binding

section
variable [Semantics] {db : Database} {lookup : Lookup} {table : Table} {ty : ScalarType}
  {key key' : Value}

/-- The bound stages of the query of a driver row. -/
def lookupStages (lookup : Lookup) (ty : ScalarType) (key : Value) : List Stage :=
  [.filter (keyFilter lookup.targetKey key ty), .sort [⟨lookup.targetKey, false, some ty⟩],
    .take 0 (lookup.limit + 1)]

theorem preparePage_lookup :
    preparePage db ⟨lookup.table, lookupStages lookup ty key⟩ = .ok none :=
  rfl

theorem preparePipeline_lookup (ht : db.table lookup.table = .ok table)
    (hty : db.catalog.fieldType table.schema lookup.targetKey = .ok ty) (hwf : ty.WellFormed)
    (hkey : db.catalog.coerce key ty "expression literal" = .ok key') {n : ℕ}
    (htyped : db.catalog.HasType n ty key') : preparePipeline db (lookupPipeline lookup key) =
      .ok (⟨lookup.table, lookupStages lookup ty key'⟩, table.schema) := by
  have hsort : bindSortKey db.catalog table.schema ⟨lookup.targetKey, false, none⟩ =
      .ok ⟨lookup.targetKey, false, some ty⟩ := by
    simp [bindSortKey, hty, orderable_of_hasType htyped]
  have hbind : bindStages db table.schema (lookupPipeline lookup key).stages =
      .ok (lookupStages lookup ty key', table.schema) := by
    simp [lookupPipeline, bindStages, bindStage, bind_keyFilter hty hwf hkey, hsort, lookupStages]
  rw [preparePipeline]
  simp only [lookupPipeline] at hbind ⊢
  rw [ht, ok_bind, hbind, ok_bind]
  rfl

end

/-! ## Keys under an index -/

section Components
variable {catalog : Catalog} {schema : List Column} {column : String} {ty : ScalarType}
  {key : Value} {components : List IndexComponentDefinition} {fields : Fields} {p k : List UInt8}

def keyComponents (column : String) (components : List IndexComponentDefinition) :
    List IndexComponentDefinition :=
  components.takeWhile fun component => component.column = column

theorem column_of_mem_keyComponents
    {component : IndexComponentDefinition} (h : component ∈ keyComponents column components) :
    component.column = column := by
  simpa using mem_takeWhile_imp h

variable (hty : catalog.fieldType schema column = .ok ty)
include hty

/-- The constraint fixes the leading components on its column, and nothing else. -/
theorem matchComponents_key (hself : catalog.cmpTyped ty key key = .ok .eq)
    (components : List IndexComponentDefinition) :
    matchComponents catalog schema [⟨column, .eq, key⟩] components =
      .ok ⟨(keyComponents column components).map fun component =>
        (component, key), none, false⟩ := by
  induction components with
  | nil => rfl
  | cons component components ih =>
    rw [matchComponents, keyComponents, takeWhile_cons]
    by_cases h : component.column = column
    · simp [h, hty, satisfiesAll, constraintMatches, hself, ih, keyComponents]
    · simp [h, Ne.symm h]

theorem typedComponents_key (h : ∀ c ∈ components, c.column = column) :
    typedComponents catalog schema (components.map fun component => (component, key)) =
      .ok (components.map fun component => ⟨ty, key, component.descending⟩) := by
  rw [typedComponents, mapM_eq_ok_iff, forall₂_map_left_iff, forall₂_map_right_iff,
    forall₂_same]
  intro component hmem
  dsimp only
  rw [h component hmem, hty]
  rfl

omit hty in
theorem encodeComponents_key {code : List UInt8}
    (hcode : encodeValue catalog MAP_INDEX_KEY_CODEC_VERSION MAX_DEPTH ty key = .ok code) :
    ∃ p, encodeComponents catalog MAP_INDEX_KEY_CODEC_VERSION
      (components.map fun component => ⟨ty, key, component.descending⟩) = .ok p := by
  induction components with
  | nil => exact ⟨[], rfl⟩
  | cons component components ih =>
    obtain ⟨p, hp⟩ := ih
    rw [map_cons, encodeComponents, encodeComponent, hcode, hp]
    exact ⟨_, rfl⟩

/-- The key of a row with this value begins with the code of the fixed components. -/
theorem encodeComponents_begins (hfield : rowField fields column = some key) {name : String}
    {types : List ScalarType}
    {values : List Value}
    (hvalues : Forall₂ (fun c v => indexComponentValue fields name c = .ok v) components values)
    (htypes : Forall₂ (fun c t => catalog.fieldType schema c.column = .ok t) components types)
    (hp : encodeComponents catalog MAP_INDEX_KEY_CODEC_VERSION
      ((keyComponents column components).map fun component =>
        ⟨ty, key, component.descending⟩) = .ok p)
    (hk : encodeComponents catalog MAP_INDEX_KEY_CODEC_VERSION
      (boundComponents components types values) = .ok k) : ∃ rest, k = p ++ rest ∧
      ((keyComponents column components).length = components.length → rest = []) := by
  induction hvalues generalizing types p k with
  | nil =>
    cases htypes
    cases hp
    cases hk
    exact ⟨[], rfl, fun _ => rfl⟩
  | @cons component value components values hvalue _ ih =>
    cases htypes with
    | @cons _ t _ types ht htypes =>
      rw [keyComponents, takeWhile_cons] at hp ⊢
      by_cases h : component.column = column
      · rw [if_pos (by simpa using h)] at hp ⊢
        obtain ⟨head, hhead, tail, htail, hp⟩ := of_bind₂ hp
        cases hp
        obtain ⟨head', hhead', tail', htail', hk⟩ := of_bind₂ hk
        cases hk
        obtain rfl : t = ty := by
          rw [h, hty] at ht
          exact (Except.ok.inj ht).symm
        obtain rfl : value = key := by
          rw [indexComponentValue, h, hfield] at hvalue
          obtain ⟨_, -, hvalue⟩ := of_bind hvalue
          exact (Except.ok.inj hvalue).symm
        obtain rfl := Except.ok.inj (hhead.symm.trans hhead')
        obtain ⟨rest, rfl, hfull⟩ := ih htypes htail htail'
        refine ⟨rest, by rw [append_assoc], fun hlen => hfull ?_⟩
        rw [length_cons, length_cons] at hlen
        exact Nat.succ.inj hlen
      · rw [if_neg (by simpa using h)] at hp ⊢
        cases hp
        exact ⟨k, rfl, fun hlen => by cases hlen⟩

theorem tupleKey_begins (hfield : rowField fields column = some key) {name : String}
    (hp : encodeComponents catalog MAP_INDEX_KEY_CODEC_VERSION
      ((keyComponents column components).map fun component =>
        ⟨ty, key, component.descending⟩) = .ok p)
    (hk : tupleKey catalog schema name components fields = .ok k) : ∃ rest, k = p ++ rest ∧
      ((keyComponents column components).length = components.length → rest = []) := by
  obtain ⟨values, hvalues, types, htypes, hk⟩ := of_bind₂ hk
  obtain ⟨code, hcode, hk⟩ := of_bind hk
  rw [limitedKey] at hk
  obtain ⟨-, hk⟩ := of_refused hk
  cases hk
  exact encodeComponents_begins hty hfield (mapM_eq_ok_iff.mp hvalues) (mapM_eq_ok_iff.mp htypes) hp
    (encodeTupleVersion_eq_ok hcode).2

end Components

theorem prefixBounds_contains (p rest : List UInt8) :
    (prefixBounds p).contains (p ++ rest) = true := by
  rw [prefixBounds]
  split
  · rfl
  · have hlow : (compare p (p ++ rest)).isLE = true := by
      have h := compare_append_of_codeCompare (codeCompare_self p) [] rest
      rw [append_nil] at h
      rw [h]
      cases rest <;> simp
    have hhigh : BelowOrPrefix (p ++ rest) p := .inr (prefix_append p rest)
    unfold EncodedIndexBounds.contains
    dsimp only
    rw [hlow, Bool.true_and]
    cases hsucc : prefixSuccessor p with
    | none => rfl
    | some s =>
      have hlt := ((prefixSuccessor_spec p (p ++ rest)).1 s hsucc).mpr hhigh
      simp [hlt]

/-! ## The use of one index -/

/-- What the invariant of a database says about a table that a lookup reads. -/
structure LookupTarget [External] (db : Database) (name : String) (table : Table) : Prop where
  found : db.table name = .ok table
  schema : SchemaBound table.schema
  typed : ∀ row ∈ table.rows, db.catalog.WellTypedFields table.schema row.fields
  ascending : RowsAscending table.rows
  follow : db.IndexesFollow name table
  components : ∀ d ∈ valuesOf (db.definitions name),
    d.effectiveComponents.length ≤ MAX_INDEX_COMPONENTS
  paths : ∀ d ∈ valuesOf (db.definitions name), ∀ component ∈ d.effectiveComponents,
    db.catalog.fieldPathIds table.schema component.column = .ok component.fieldPath
  atoms : ∀ d ∈ valuesOf (db.definitions name), ∀ predicate, d.predicate = some predicate →
    ∀ atom ∈ predicate.atoms, AtomBound db.catalog table.schema atom

/-- A value of the type of the target key, in a database that keeps its invariant. -/
structure LookupKey [External] (db : Database) (lookup : Lookup) (table : Table) (ty : ScalarType)
    (key : Value) : Prop where
  sound : db.catalog.Sound
  target : LookupTarget db lookup.table table
  type : db.catalog.fieldType table.schema lookup.targetKey = .ok ty
  typed : db.catalog.HasType MAX_DEPTH ty key

section Candidate
variable [External] [Semantics] {db : Database} {lookup : Lookup} {table : Table} {ty : ScalarType}
  {key : Value} {d : IndexDefinition}

omit [Semantics] in
theorem LookupKey.wellFormed (h : LookupKey db lookup table ty key) : ty.WellFormed :=
  (fieldType_bound h.sound h.target.schema.types h.type).wellFormed

/-- The keys that begin with the code of the fixed components; all components fixed leave
one key. -/
def lookupBounds (column : String) (components : List IndexComponentDefinition) (p : List UInt8) :
    EncodedIndexBounds :=
  if (keyComponents column components).length = components.length then .point p else prefixBounds p

/-- The use of an index that starts with the key. -/
def lookupCandidate (column : String) (d : IndexDefinition) (p : List UInt8) :
    IndexAccessCandidate where
  indexScan := ⟨d.shapeKey, some (lookupBounds column d.effectiveComponents p), false⟩
  equalityComponents := (keyComponents column d.effectiveComponents).length
  hasRange := false
  componentCount := d.effectiveComponents.length
  indexId := d.id
  orderedSort := some 1

/-- The code of the fixed components of an index. -/
def KeyPrefix (catalog : Catalog) (column : String) (ty : ScalarType) (key : Value)
    (d : IndexDefinition) (p : List UInt8) : Prop :=
  encodeComponents catalog MAP_INDEX_KEY_CODEC_VERSION
    ((keyComponents column d.effectiveComponents).map fun component =>
      ⟨ty, key, component.descending⟩) = .ok p

omit [External] in
/-- The sort by the key costs nothing where an index fixes the key. -/
theorem indexSortMatch_lookup {components : List IndexComponentDefinition} :
    indexSortMatch (lookupStages lookup ty key) components
      (keyComponents lookup.targetKey components).length =
      if keyComponents lookup.targetKey components = [] then none else some (1, false) := by
  have hsort : leadingSort 0 (lookupStages lookup ty key) =
      some (1, [⟨lookup.targetKey, false, some ty⟩]) := rfl
  have htake : components.take (keyComponents lookup.targetKey components).length =
      keyComponents lookup.targetKey components :=
    (prefix_iff_eq_take.mp <| takeWhile_prefix _).symm
  rw [indexSortMatch, hsort]
  simp only [Option.bind_eq_bind, Option.bind_some, htake]
  by_cases hnil : keyComponents lookup.targetKey components = []
  · rw [if_pos hnil, hnil]
    cases components with
    | nil => rfl
    | cons component components =>
      have hne : component.column ≠ lookup.targetKey := by
        intro heq
        rw [keyComponents, takeWhile_cons, if_pos (by simpa using heq)] at hnil
        cases hnil
      simp [Ne.symm hne]
  · rw [if_neg hnil]
    obtain ⟨component, hmem⟩ := exists_mem_of_ne_nil _ hnil
    have hcolumn : lookup.targetKey ∈ (keyComponents lookup.targetKey components).map (·.column) :=
      mem_map.mpr ⟨component, hmem, column_of_mem_keyComponents hmem⟩
    rw [filter_cons_of_neg (by simpa using hcolumn)]
    rfl

theorem indexAccessCandidate_lookup (h : LookupKey db lookup table ty key)
    (hd : d ∈ valuesOf (db.definitions lookup.table)) :
    ∃ p, KeyPrefix db.catalog lookup.targetKey ty key d p ∧
      indexAccessCandidate db db.rowSource ⟨lookup.table, lookupStages lookup ty key⟩ none d
        [⟨lookup.targetKey, .eq, key⟩] =
        .ok (if keyComponents lookup.targetKey d.effectiveComponents = [] then none
          else some (lookupCandidate lookup.targetKey d p)) := by
  have hwf := h.wellFormed
  obtain ⟨hc, htarget, hty, hkey⟩ := h
  obtain ⟨code, hcode⟩ := hkey.encodeValue_total hc.wellFormed hwf
  obtain ⟨p, hp⟩ : ∃ p, KeyPrefix db.catalog lookup.targetKey ty key d p :=
    encodeComponents_key hcode
  have hself : db.catalog.cmpTyped ty key key = .ok .eq :=
    (hkey.cmpTypedInner_eq_iff hc.wellFormed hwf hkey).mpr rfl
  have hstats : ∃ stats, db.rowSource.tableStats lookup.table = .ok stats := by
    simp [Database.rowSource, htarget.found]
  obtain ⟨stats, hstats⟩ := hstats
  refine ⟨p, hp, ?_⟩
  rw [indexAccessCandidate]
  simp only [hstats, htarget.found, ok_bind, matchComponents_key hty hself, length_map,
    indexSortMatch_lookup]
  by_cases hnil : keyComponents lookup.targetKey d.effectiveComponents = []
  · simp [hnil]
  · have hequality : equalityKey db.catalog table.schema
        ((keyComponents lookup.targetKey d.effectiveComponents).map fun component =>
          (component, key)) =
          .ok p := by
      rw [equalityKey, if_neg (by simpa using hnil),
        typedComponents_key hty fun c hc => column_of_mem_keyComponents hc, ok_bind, encodeTuple,
        encodeTupleVersion, if_neg ?_]
      · exact hp
      · have hlen : (keyComponents lookup.targetKey d.effectiveComponents).length ≤
            MAX_INDEX_COMPONENTS :=
          (IsPrefix.length_le <| takeWhile_prefix _).trans (htarget.components d hd)
        simpa [hnil] using hlen
    have haccess : accessBounds db.catalog table.schema d.effectiveComponents
        ⟨(keyComponents lookup.targetKey d.effectiveComponents).map fun component =>
          (component, key),
          none, false⟩ (some (1, false)) none =
          .ok (some (lookupBounds lookup.targetKey d.effectiveComponents p)) := by
      rw [accessBounds, if_neg (by simp)]
      simp only [hequality, ok_bind, pageBoundary, pure_eq_ok, length_map, Option.isNone_none,
        true_and, lookupBounds]
      split
      · rfl
      · rfl
    simp [hnil, haccess, lookupCandidate]

omit [External] [Semantics] in
/-- The bounds hold the keys of all rows with this value. -/
theorem lookupBounds_contains (hty : db.catalog.fieldType table.schema lookup.targetKey = .ok ty)
    {p : List UInt8}
    (hp : KeyPrefix db.catalog lookup.targetKey ty key d p) {fields : Fields}
    (hfield : rowField fields lookup.targetKey = some key) {k : List UInt8}
    (hk : includedKey db.catalog table.schema lookup.table d fields = .ok (some k)) :
    (lookupBounds lookup.targetKey d.effectiveComponents p).contains k = true := by
  rw [includedKey] at hk
  split at hk
  · obtain ⟨k', htuple, hk⟩ := of_bind hk
    cases hk
    obtain ⟨rest, rfl, hfull⟩ := tupleKey_begins hty hfield hp htuple
    rw [lookupBounds]
    split
    · rw [hfull ‹_›, append_nil]
      exact (EncodedIndexBounds.contains_point p p).mpr rfl
    · exact prefixBounds_contains p rest
  · cases hk

end Candidate

/-! ## The plan -/

section Plan
variable [External] [Semantics] {db : Database} {lookup : Lookup} {table : Table} {ty : ScalarType}
  {key : Value} {atoms : List IndexPredicateAtom} {d : IndexDefinition} {planning : Planning}

/-- An index that starts with the key and covers every row behind the filter. -/
def Serves (column : String) (atoms : List IndexPredicateAtom) (d : IndexDefinition) : Prop :=
  keyComponents column d.effectiveComponents ≠ [] ∧ d.proven atoms = true

/-- The use of an index that serves the lookup. -/
def ServingCandidate (db : Database) (lookup : Lookup) (ty : ScalarType) (key : Value)
    (atoms : List IndexPredicateAtom) (candidate : IndexAccessCandidate) : Prop :=
  ∃ d ∈ valuesOf (db.definitions lookup.table), Serves lookup.targetKey atoms d ∧
    ∃ p, KeyPrefix db.catalog lookup.targetKey ty key d p ∧
      candidate = lookupCandidate lookup.targetKey d p

/-- One more index: the best so far stays an index that serves, and one that serves is not
lost. -/
theorem considerIndex_lookup (h : LookupKey db lookup table ty key)
    (hd : d ∈ valuesOf (db.definitions lookup.table))
    (hbest : ∀ c, planning.best = some c → ServingCandidate db lookup ty key atoms c) :
    ∃ next, considerIndex db db.rowSource ⟨lookup.table, lookupStages lookup ty key⟩ none
        [⟨lookup.targetKey, .eq, key⟩] atoms planning d = .ok next ∧
      (∀ c, next.best = some c → ServingCandidate db lookup ty key atoms c) ∧
      (Serves lookup.targetKey atoms d ∨ planning.best.isSome → next.best.isSome) := by
  obtain ⟨p, hp, hcandidate⟩ := indexAccessCandidate_lookup h hd
  obtain ⟨posting, hposting, -⟩ := h.target.follow.postings d hd
  have hindex : db.rowSource.hasIndex lookup.table d.shapeKey = true := by
    change (db.tableIndexes lookup.table)[d.shapeKey]?.isSome = true
    rw [hposting]
    rfl
  rw [considerIndex]
  by_cases hproven : d.proven atoms = true
  · rw [if_neg (by simpa using hproven), if_neg (by simpa using hindex), hcandidate, ok_bind]
    by_cases hnil : keyComponents lookup.targetKey d.effectiveComponents = []
    · rw [if_pos hnil]
      exact ⟨planning, rfl, hbest, fun h => h.resolve_left fun hserves => hserves.1 hnil⟩
    · rw [if_neg hnil]
      dsimp only
      split
      · refine ⟨_, rfl, ?_, fun _ => rfl⟩
        rintro _ ⟨⟩
        exact ⟨d, hd, ⟨hnil, hproven⟩, p, hp, rfl⟩
      · next hworse =>
        refine ⟨planning, rfl, hbest, fun _ => ?_⟩
        cases hnone : planning.best with
        | none => simp [hnone] at hworse
        | some c => rfl
  · rw [if_pos (by simpa using hproven), rejectIndex]
    have hkeep : ∀ {next : Planning}, next.best = planning.best →
        (∀ c, next.best = some c → ServingCandidate db lookup ty key atoms c) ∧
        (Serves lookup.targetKey atoms d ∨ planning.best.isSome → next.best.isSome) := by
      intro next hsame
      rw [hsame]
      exact ⟨hbest, fun h => h.resolve_left fun hserves => hproven hserves.2⟩
    split
    · rw [hcandidate, ok_bind]
      split
      · exact ⟨_, rfl, hkeep rfl⟩
      · exact ⟨_, rfl, hkeep rfl⟩
    · exact ⟨_, rfl, hkeep rfl⟩

theorem foldlM_considerIndex_lookup (h : LookupKey db lookup table ty key)
    {ds : List IndexDefinition}
    (hds : ∀ d ∈ ds, d ∈ valuesOf (db.definitions lookup.table))
    (hbest : ∀ c, planning.best = some c → ServingCandidate db lookup ty key atoms c)
    (hserves : planning.best.isSome ∨ ∃ d ∈ ds, Serves lookup.targetKey atoms d) :
    ∃ final c, ds.foldlM (considerIndex db db.rowSource
      ⟨lookup.table, lookupStages lookup ty key⟩ none
        [⟨lookup.targetKey, .eq, key⟩] atoms) planning = .ok final ∧ final.best = some c ∧
      ServingCandidate db lookup ty key atoms c := by
  induction ds generalizing planning with
  | nil =>
    obtain ⟨c, hsome⟩ := Option.isSome_iff_exists.mp (hserves.resolve_right (by simp))
    exact ⟨planning, c, rfl, hsome, hbest c hsome⟩
  | cons d ds ih =>
    obtain ⟨hd, hds⟩ := forall_mem_cons.mp hds
    obtain ⟨next, hnext, hbest', hkept⟩ := considerIndex_lookup h hd hbest
    rw [foldlM_cons, hnext, ok_bind]
    refine ih hds hbest' ?_
    obtain hsome | ⟨d', hmem, hd'⟩ := hserves
    · exact .inl (hkept (.inr hsome))
    · obtain rfl | hmem := mem_cons.mp hmem
      · exact .inl (hkept (.inl hd'))
      · exact .inr ⟨d', hmem, hd'⟩

omit [External] in
/-- What the filter by a key says to the planner can always be collected. -/
theorem collectQueryAtoms_key {catalog : Catalog} {schema : List Column} {column : String}
    {path : List UInt64} (hpath : catalog.fieldPathIds schema column = .ok path)
    (hkey : catalog.coerce key ty "query predicate literal" = .ok key) :
    ∃ atoms, collectQueryAtoms catalog schema (keyFilter column key ty) = .ok atoms := by
  have hvalue : evaluateValue catalog (fun _ => none) (.literal key) = .ok key := rfl
  simp only [keyFilter, collectQueryAtoms, ScalarExpression.isLiteral, if_true, hpath,
    ok_bind, hvalue]
  split
  · exact ⟨_, rfl⟩
  · exact ⟨_, by rw [hkey, ok_bind]; rfl⟩

omit [External] in
/-- A partial index whose conditions the filter implies covers every row behind it. -/
theorem includes_of_proven {catalog : Catalog} (hc : catalog.Sound) {schema : List Column}
    (hschema : SchemaBound schema) {raw bound : BoolExpression}
    (hbind : Expression.bind catalog schema raw = .ok bound)
    (hatoms : collectQueryAtoms catalog schema bound = .ok atoms)
    (hd : ∀ predicate, d.predicate = some predicate → ∀ atom ∈ predicate.atoms,
      AtomBound catalog schema atom) (hproven : d.proven atoms = true) {row : Fields}
    (hrow : catalog.TypedFields schema row) {b b' : ℕ}
    (htrue : evaluate catalog row bound b = .ok (true, b')) : d.includes row = true := by
  rw [IndexDefinition.includes]
  split
  · next predicate hpredicate =>
    rw [IndexDefinition.proven, hpredicate] at hproven
    refine all_eq_true.mpr fun atom hatom => ?_
    obtain ⟨candidate, hmem, heq⟩ := any_eq_true.mp (all_eq_true.mp hproven atom hatom)
    obtain ⟨hbound, hholds⟩ := collectQueryAtoms_holds hc hschema hbind hatoms hmem
    rw [holds_congr hc hschema row (hd predicate hpredicate atom hatom) hbound heq]
    exact hholds row hrow b b' htrue
  · rfl

omit [Semantics] in
theorem LookupKey.rowField (h : LookupKey db lookup table ty key) {row : Row}
    (hrow : row ∈ table.rows) : ∃ x, rowField row.fields lookup.targetKey = some x ∧
      db.catalog.HasType MAX_DEPTH ty x :=
  (h.target.typed row hrow).rowField h.type

/-- **The plan of a lookup.** It scans an index that starts with the key, between bounds that
hold the keys of all rows with this value, and the index covers these rows. -/
theorem planAccess_lookup (h : LookupKey db lookup table ty key)
    (hfixed : ∀ path, db.catalog.coerce key ty path = .ok key)
    (hserved : ∃ d ∈ valuesOf (db.definitions lookup.table),
      d.servesLookup lookup.targetKey = true) :
    ∃ d ∈ valuesOf (db.definitions lookup.table), ∃ bounds,
      planAccess db db.rowSource ⟨lookup.table, lookupStages lookup ty key⟩ none =
        .ok ⟨some ⟨d.shapeKey, some bounds, false⟩, some 1⟩ ∧
      ∀ row ∈ table.rows, rowField row.fields lookup.targetKey = some key →
        ∃ k, rowKey db.catalog table.schema lookup.table d row = .ok (some k) ∧
          bounds.contains k = true := by
  have hwf := h.wellFormed
  obtain ⟨hc, htarget, hty, hkey⟩ := h
  obtain ⟨served, hserved, hserves⟩ := hserved
  rw [IndexDefinition.servesLookup, Bool.and_eq_true] at hserves
  obtain ⟨hpredicate, hhead⟩ := hserves
  obtain ⟨component, hcomponent, hcolumn⟩ : ∃ component,
      served.effectiveComponents.head? = some component ∧ component.column = lookup.targetKey := by
    simpa [Option.any_eq_true] using hhead
  have hmem : component ∈ served.effectiveComponents := mem_of_head? hcomponent
  have hpath := htarget.paths served hserved component hmem
  rw [hcolumn] at hpath
  obtain ⟨atoms, hatoms⟩ := collectQueryAtoms_key hpath (hfixed _)
  have hleading : leadingQueryPredicateAtoms db lookup.table
      ⟨lookup.table, lookupStages lookup ty key⟩ =
      .ok (atoms ++ []) := by
    simp [leadingQueryPredicateAtoms, htarget.found, lookupStages, leadingAtoms, hatoms]
  rw [append_nil] at hleading
  have hservedAtoms : Serves lookup.targetKey atoms served := by
    constructor
    · obtain ⟨rest, hrest⟩ : ∃ rest, served.effectiveComponents = component :: rest :=
        ⟨_, eq_cons_of_mem_head? hcomponent⟩
      simp [keyComponents, hrest, hcolumn]
    · rw [IndexDefinition.proven, Option.isNone_iff_eq_none.mp hpredicate]
  have hstart : ∀ c, (⟨[], none⟩ : Planning).best = some c →
      ServingCandidate db lookup ty key atoms c := by simp
  obtain ⟨final, c, hfold, hbest, d, hd, hdserves, p, hp, rfl⟩ :=
    foldlM_considerIndex_lookup ⟨hc, htarget, hty, hkey⟩ (fun _ h => h) hstart
      (.inr ⟨served, hserved, hservedAtoms⟩)
  obtain ⟨stats, hstats⟩ : ∃ stats, db.rowSource.tableStats lookup.table = .ok stats := by
    simp [Database.rowSource, htarget.found]
  have hconstraints : leadingIndexConstraints ⟨lookup.table, lookupStages lookup ty key⟩ =
      [⟨lookup.targetKey, .eq, key⟩] := rfl
  refine ⟨d, hd, lookupBounds lookup.targetKey d.effectiveComponents p, ?_, fun row hrow hfield =>
    ?_⟩
  · rw [planAccess]
    simp only [hstats, ok_bind, hconstraints, hleading, hfold, hbest]
    rfl
  · have hequal : key.cmpEq key = true := (hkey.cmpEq_iff hc.wellFormed hwf hkey).mpr rfl
    have htrue : evaluate db.catalog row.fields (keyFilter lookup.targetKey key ty) 0 =
        .ok (true, 0) := by
      rw [evaluate_keyFilter hfield, hequal]
    have hincludes : d.includes row.fields = true :=
      includes_of_proven hc htarget.schema (bind_keyFilter hty hwf (hfixed _)) hatoms
        (htarget.atoms d hd) hdserves.2 (htarget.typed row hrow).typed htrue
    obtain ⟨k, hk⟩ := htarget.follow.keyed d hd row hrow
    have hincluded : includedKey db.catalog table.schema lookup.table d row.fields = .ok k := hk
    rw [includedKey, if_pos hincludes] at hincluded
    obtain ⟨k', hk', rfl⟩ := of_bind_pure hincluded
    exact ⟨k', hk, lookupBounds_contains hty hp hfield hk⟩

end Plan

/-! ## Hits -/

section Hits
variable [Semantics] {catalog : Catalog} {source : RowSource} {name : String}
  {filters : Option (List Stage)} {good : RowId → Bool}

/-- The eligible hits, up to the room there is. -/
theorem selectHits_room {hits : List IndexHit} {seen : List RowId} {room : ℕ}
    (hgood : ∀ hit ∈ hits, ∀ b, eligibleHit catalog source name filters hit.rowId b =
      .ok (good hit.rowId, b))
    (hseen : ∀ hit ∈ hits, hit.rowId ∉ seen) (hnodup : (hits.map IndexHit.rowId).Nodup) (b : ℕ) :
    selectHits catalog source name filters seen (some (room + 1)) hits b =
      .ok (((hits.map IndexHit.rowId).filter good).take (room + 1), b) := by
  induction hits generalizing seen room with
  | nil => rfl
  | cons hit hits ih =>
    obtain ⟨hhit, hgood⟩ := forall_mem_cons.mp hgood
    obtain ⟨hnew, hseen⟩ := forall_mem_cons.mp hseen
    rw [map_cons, nodup_cons] at hnodup
    have hseen' : ∀ h ∈ hits, h.rowId ∉ hit.rowId :: seen := by
      intro h hmem hin
      obtain heq | hin := mem_cons.mp hin
      · exact hnodup.1 (mem_map.mpr ⟨h, hmem, heq⟩)
      · exact hseen h hmem hin
    rw [map_cons, filter_cons]
    cases room with
    | zero =>
      have hstep : selectHits catalog source name filters seen (some (0 + 1)) (hit :: hits) b =
          (if good hit.rowId then pure [hit.rowId]
            else selectHits catalog source name filters (hit.rowId :: seen) (some (0 + 1)) hits :
            Evaluation (List RowId)) b := by
        simp only [selectHits, if_neg hnew, run_bind, hhit b, ok_bind]
      rw [hstep]
      cases hok : good hit.rowId with
      | false => exact ih hgood hseen' hnodup.2
      | true => rfl
    | succ room =>
      have hstep : selectHits catalog source name filters seen (some (room + 1 + 1))
          (hit :: hits) b =
          (if good hit.rowId then do
              let rest ← selectHits catalog source name filters (hit.rowId :: seen)
                (some (room + 1)) hits
              pure (hit.rowId :: rest)
            else selectHits catalog source name filters (hit.rowId :: seen)
              (some (room + 1 + 1)) hits :
            Evaluation (List RowId)) b := by
        simp only [selectHits, if_neg hnew, run_bind, hhit b, ok_bind]
        rfl
      rw [hstep]
      cases hok : good hit.rowId with
      | false => exact ih hgood hseen' hnodup.2
      | true => exact run_bind_eq_ok.mpr ⟨_, b, ih hgood hseen' hnodup.2, rfl⟩

end Hits

section Rows
variable [External] [Semantics] {db : Database} {lookup : Lookup} {table : Table} {ty : ScalarType}
  {key : Value} {d : IndexDefinition}

/-- Whether a row has a key equal to a value. -/
def Row.matchesKey (column : String) (key : Value) (row : Row) : Bool :=
  (rowField row.fields column).any fun x => x.cmpEq key

/-- The rows of a table whose key equals a value. -/
def Table.matchingRows (table : Table) (column : String) (key : Value) : List Row :=
  table.rows.filter (Row.matchesKey column key)

omit [External] [Semantics] in
theorem exists_rows_of_ids {rows : List Row} {ids : List RowId}
    (h : ∀ id ∈ ids, ∃ row ∈ rows, row.id = id) :
    ∃ found : List Row, found.map Row.id = ids ∧ ∀ row ∈ found, row ∈ rows := by
  induction ids with
  | nil => exact ⟨[], rfl, by simp⟩
  | cons id ids ih =>
    obtain ⟨⟨row, hrow, rfl⟩, hrest⟩ := forall_mem_cons.mp h
    obtain ⟨found, rfl, hfound⟩ := ih hrest
    exact ⟨row :: found, rfl, forall_mem_cons.mpr ⟨hrow, hfound⟩⟩

omit [External] in
/-- A hit counts when its row has the key. -/
theorem eligibleHit_lookup (ht : db.table lookup.table = .ok table) {row : Row}
    (hrow : findRow table.rows row.id = some row) {x : Value}
    (hx : rowField row.fields lookup.targetKey = some x) (b : ℕ) :
    eligibleHit db.catalog db.rowSource lookup.table
        (some [.filter (keyFilter lookup.targetKey key ty)]) row.id b =
      .ok (row.matchesKey lookup.targetKey key, b) := by
  have hget : db.rowSource.getRow lookup.table row.id = .ok (some row) := by
    simp [Database.rowSource, ht, hrow]
  have hmatches : row.matchesKey lookup.targetKey key = x.cmpEq key := by
    simp [Row.matchesKey, hx]
  rw [hmatches]
  refine run_bind_eq_ok.mpr ⟨some row, b, run_lift_eq_ok.mpr ⟨hget, rfl⟩,
    run_bind_eq_ok.mpr ⟨x.cmpEq key, b, evaluate_keyFilter hx b, ?_⟩⟩
  cases x.cmpEq key <;> rfl

omit [External] [Semantics] in
/-- The posting of an index names each row once. -/
theorem nodup_scan_ids {name : String} (hasc : RowsAscending table.rows) {posting : IndexPosting}
    (hrep : posting.Represents (entriesOf (rowKey db.catalog table.schema name d) table.rows))
    (within : List UInt8 → Bool) : ((posting.scan within false).map Prod.snd).Nodup := by
  have hentry : ∀ e ∈ posting.scan within false, ∃ row ∈ table.rows,
      rowKey db.catalog table.schema name d row = .ok (some e.1) ∧ row.id = e.2 := by
    rintro ⟨k, id⟩ he
    exact hrep.mem_idsAt.mp (Posting.mem_scan.mp he).2
  refine pairwise_map.mpr ((Posting.pairwise_scan hrep.valid within false).imp_of_mem ?_)
  intro e e' he he' hbefore heq
  obtain ⟨row, hrow, hkey, hid⟩ := hentry e he
  obtain ⟨row', hrow', hkey', hid'⟩ := hentry e' he'
  obtain rfl : row = row' := hasc.eq_of_id_eq hrow hrow' (by rw [hid, hid', heq])
  have hsame : e.1 = e'.1 := by simpa using hkey.symm.trans hkey'
  obtain hlt | ⟨-, hlt⟩ := hbefore
  · rw [hsame] at hlt
    simp at hlt
  · rw [heq] at hlt
    exact lt_irrefl _ hlt

/-- **The candidates of a lookup** are the rows with its key, up to one behind the limit. -/
theorem materializeAccessCandidates_lookup (h : LookupKey db lookup table ty key)
    (hd : d ∈ valuesOf (db.definitions lookup.table)) {bounds : EncodedIndexBounds}
    (hcovers : ∀ row ∈ table.rows, rowField row.fields lookup.targetKey = some key →
      ∃ k, rowKey db.catalog table.schema lookup.table d row = .ok (some k) ∧
        bounds.contains k = true) :
    ∃ found : List Row, found.Perm (table.matchingRows lookup.targetKey key) ∧
      materializeAccessCandidates db db.rowSource ⟨lookup.table, lookupStages lookup ty key⟩ none
        ⟨some ⟨d.shapeKey, some bounds, false⟩, some 1⟩ =
          .ok (some ((found.take (lookup.limit + 1)).map Row.id)) := by
  have hwf := h.wellFormed
  have hvalue : ∀ row ∈ table.rows, ∃ x, rowField row.fields lookup.targetKey = some x ∧
    db.catalog.HasType MAX_DEPTH ty x := fun row hrow => h.rowField hrow
  obtain ⟨hc, htarget, hty, hkey⟩ := h
  obtain ⟨posting, hposting, hrep⟩ := htarget.follow.postings d hd
  -- the hits are rows of the table, each once
  obtain ⟨rows, hrows, hmem⟩ : ∃ rows : List Row,
      rows.map Row.id = (posting.scan bounds.contains false).map Prod.snd ∧
        ∀ row ∈ rows, row ∈ table.rows := by
    refine exists_rows_of_ids fun id hid => ?_
    obtain ⟨⟨k, id'⟩, he, rfl⟩ := mem_map.mp hid
    obtain ⟨row, hrow, -, hid⟩ := hrep.mem_idsAt.mp (Posting.mem_scan.mp he).2
    exact ⟨row, hrow, hid⟩
  have hnodup : (rows.map Row.id).Nodup := hrows ▸ nodup_scan_ids htarget.ascending hrep _
  have hfind : ∀ row ∈ rows, findRow table.rows row.id = some row := fun row hrow =>
    htarget.ascending.findRow_eq_some.mpr ⟨hmem row hrow, rfl⟩
  refine ⟨rows.filter (Row.matchesKey lookup.targetKey key), ?_, ?_⟩
  · rw [Table.matchingRows, perm_ext_iff_of_nodup ((hnodup.of_map _).filter _)
      ((htarget.ascending.nodup.of_map _).filter _)]
    intro row
    rw [mem_filter, mem_filter]
    refine and_congr_left fun hmatches => ⟨hmem row, fun hrow => ?_⟩
    obtain ⟨x, hx, hxt⟩ := hvalue row hrow
    rw [Row.matchesKey, hx] at hmatches
    obtain rfl : x = key := (hxt.cmpEq_iff hc.wellFormed hwf hkey).mp hmatches
    obtain ⟨k, hk, hcontains⟩ := hcovers row hrow hx
    have hid : row.id ∈ rows.map Row.id := by
      rw [hrows]
      exact mem_map.mpr ⟨(k, row.id), Posting.mem_scan.mpr
        ⟨hcontains, hrep.mem_idsAt.mpr ⟨row, hrow, hk, rfl⟩⟩, rfl⟩
    obtain ⟨row', hrow', heq⟩ := mem_map.mp hid
    rwa [← htarget.ascending.eq_of_id_eq (hmem row' hrow') hrow heq]
  · obtain ⟨hits, hhits⟩ : ∃ hits : List IndexHit,
        hits = (posting.scan bounds.contains false).map fun e => ⟨e.1, e.2⟩ := ⟨_, rfl⟩
    have hscan : db.rowSource.scanIndex lookup.table d.shapeKey bounds false none = .ok hits := by
      simp [Database.rowSource, Database.planned, hposting, limitHits, hhits]
    have hids : hits.map IndexHit.rowId = rows.map Row.id := by
      rw [hrows, hhits, map_map]
      rfl
    have hgood : ∀ hit ∈ hits, ∀ b, eligibleHit db.catalog db.rowSource lookup.table
        (some [.filter (keyFilter lookup.targetKey key ty)]) hit.rowId b =
          .ok ((findRow table.rows hit.rowId).any (Row.matchesKey lookup.targetKey key), b) := by
      intro hit hhit b
      obtain ⟨row, hrow, hid⟩ := mem_map.mp (hids ▸ mem_map_of_mem hhit)
      obtain ⟨x, hx, -⟩ := hvalue row (hmem row hrow)
      rw [← hid, hfind row hrow]
      exact eligibleHit_lookup htarget.found (hfind row hrow) hx b
    have hselect : selectHits db.catalog db.rowSource lookup.table
        (some [.filter (keyFilter lookup.targetKey key ty)]) [] (some (lookup.limit + 1)) hits
        MAX_COLLECTION_PREDICATE_EVALUATIONS = .ok (((hits.map IndexHit.rowId).filter fun id =>
          (findRow table.rows id).any (Row.matchesKey lookup.targetKey key)).take
          (lookup.limit + 1),
          MAX_COLLECTION_PREDICATE_EVALUATIONS) :=
      selectHits_room hgood (fun _ _ => not_mem_nil) (hids ▸ hnodup) _
    have hfilter : (rows.map Row.id).filter (fun id =>
        (findRow table.rows id).any (Row.matchesKey lookup.targetKey key)) =
          (rows.filter (Row.matchesKey lookup.targetKey key)).map Row.id := by
      rw [filter_map]
      refine congrArg _ (filter_congr fun row hrow => ?_)
      rw [Function.comp_apply, hfind row hrow]
      rfl
    rw [materializeAccessCandidates]
    simp [lookupStages, neededRows, Stage.isFilter, hscan, hselect, hids, hfilter,
      arrangeCandidates]

end Rows

/-! ## The response -/

section Response
variable [External] [Semantics] {db : Database} {lookup : Lookup} {table : Table} {ty : ScalarType}
  {key : Value} {rows : List Row}

omit [External] in
theorem applyRowStages_keyFilter {catalog : Catalog} {column : String}
    (h : ∀ row ∈ rows, row.matchesKey column key = true) (b : ℕ) :
    applyRowStages catalog (.filter (keyFilter column key ty)) (rows.map Row.fields) b =
      .ok (rows.map Row.fields, b) := by
  induction rows with
  | nil => rfl
  | cons row rows ih =>
    obtain ⟨hrow, hrest⟩ := forall_mem_cons.mp h
    obtain ⟨x, hx, hequal⟩ : ∃ x, rowField row.fields column = some x ∧ x.cmpEq key = true := by
      simpa [Row.matchesKey, Option.any_eq_true] using hrow
    have heval : evaluate catalog row.fields (keyFilter column key ty) b = .ok (true, b) := by
      rw [evaluate_keyFilter hx, hequal]
    exact run_bind_eq_ok.mpr ⟨some row.fields, b, run_bind_eq_ok.mpr ⟨true, b, heval, rfl⟩,
      run_bind_eq_ok.mpr ⟨_, b, ih hrest, rfl⟩⟩

/-- Rows that have the key pass all stages. -/
theorem runPipeline_lookup {source : RowSource} {context : ListContext}
    (hcontext : context.access.orderedSort = some 1)
    (hrows : ∀ row ∈ rows, row.matchesKey lookup.targetKey key = true)
    (hlen : rows.length ≤ lookup.limit + 1) (budget : ℕ) :
    Returns IsLimit (runPipeline db source context (lookupStages lookup ty key) rows budget)
      fun r =>
      r.1 = ⟨rows.map Row.fields, [], none⟩ := by
  have hsplit : splitStreaming context 0 (lookupStages lookup ty key) =
      (lookupStages lookup ty key, []) := by
    simp [lookupStages, splitStreaming, blocksStream, hcontext]
  have hlist : listRun ((lookupStages lookup ty key).map (stageOp db.catalog))
      ((rows.map Row.fields).map bare) = some ((rows.map Row.fields).map bare) := by
    have hfilter : (stageOp db.catalog (.filter (keyFilter lookup.targetKey key ty))).listFrom
        ⟨0, 0⟩
        ((rows.map Row.fields).map bare) = some ((rows.map Row.fields).map bare) :=
      stepList_of_applyRowStages (applyRowStages_keyFilter hrows 0)
    have hsort : (stageOp db.catalog (.sort [⟨lookup.targetKey, false, some ty⟩])).listFrom ⟨0, 0⟩
        ((rows.map Row.fields).map bare) = some ((rows.map Row.fields).map bare) :=
      (stepList_of_pure (f := id) (fun _ => rfl) _).trans (by rw [map_id])
    have htake : (stageOp db.catalog (.take 0 (lookup.limit + 1))).listFrom ⟨0, 0⟩
        ((rows.map Row.fields).map bare) = some ((rows.map Row.fields).map bare) := by
      rw [stageOp, Op.listFrom, Nat.sub_zero, Nat.sub_zero, drop_zero,
        take_of_length_le (by simpa using hlen)]
    rw [lookupStages, map_cons, map_cons, map_cons, map_nil, listRun_cons, hfilter,
      Option.bind_some, listRun_cons, hsort, Option.bind_some, listRun_cons, htake]
    rfl
  have hstream : streamFrom (progress db.catalog
      ((lookupStages lookup ty key).map fun stage => (stage, ⟨0, 0⟩)))
      (rows.map fun row => bare row.fields) = some ((rows.map Row.fields).map bare) := by
    rw [progress_fresh]
    refine streamFrom_of_listFrom ?_
    rw [← hlist, map_map]
    rfl
  rw [runPipeline_of_streaming (by rw [hsplit]), hsplit]
  have hsnd : [] ++ ((rows.map Row.fields).map bare).map Prod.snd = rows.map Row.fields := by simp
  refine Answers.bind (R := (· = (⟨rows.map Row.fields, [], none⟩ : ListState)))
    (streamRows_returns keeps_appendWorkingRow hstream hsnd rfl budget) fun kept d hkept => ?_
  refine (Answers.lift (returns_checkMaterializedRows _)).bind fun _ d _ => .pure ?_
  rw [hkept]

omit [Semantics] in
theorem accessedRows_of_ids {name : String} (htarget : LookupTarget db name table)
    (hrows : ∀ row ∈ rows, row ∈ table.rows) :
    accessedRows db.rowSource name (some (rows.map Row.id)) = .ok rows := by
  have hget : (rows.map Row.id).mapM (db.rowSource.getRow name) = .ok (rows.map some) := by
    rw [mapM_eq_ok_iff, forall₂_map_left_iff, forall₂_map_right_iff, forall₂_same]
    intro row hrow
    have hfind := htarget.ascending.findRow_eq_some.mpr ⟨hrows row hrow, rfl⟩
    simp [Database.rowSource, htarget.found, hfind]
  rw [accessedRows, hget, ok_bind, filterMap_map]
  simp

/-- **The response to a driver row**: the rows with its key, up to one behind the limit. -/
theorem queryFrom_lookup (h : LookupKey db lookup table ty key)
    (hplain : db.catalog.Everywhere ScalarType.PlainVariants)
    (hp : ty.Everywhere ScalarType.PlainVariants) (hlimit : lookup.limit ≤ MAX_LOOKUP_MATCHES)
    (hserved : ∃ d ∈ valuesOf (db.definitions lookup.table), d.servesLookup lookup.targetKey = true)
    {raw : Value} (hraw : db.catalog.coerce raw ty "expression literal" = .ok key) :
    Returns IsLimit (queryFrom db db.rowSource (lookupPipeline lookup raw)) fun response =>
      ∃ found : List Row, found.Perm (table.matchingRows lookup.targetKey key) ∧
        response.rows = (found.take (lookup.limit + 1)).map Row.fields := by
  have hwf := h.wellFormed
  have hfixed := h.typed.coerceInner_eq h.sound.wellFormed hplain hwf hp
  obtain ⟨d, hd, bounds, hplan, hcovers⟩ := planAccess_lookup h hfixed hserved
  obtain ⟨found, hperm, hcandidates⟩ := materializeAccessCandidates_lookup h hd hcovers
  have hmem : ∀ row ∈ found.take (lookup.limit + 1), row ∈ table.rows ∧
      row.matchesKey lookup.targetKey key = true := fun row hrow =>
    mem_filter.mp (hperm.mem_iff.mp (mem_of_mem_take hrow))
  have hlen : (found.take (lookup.limit + 1)).length ≤ lookup.limit + 1 := by simp
  rw [queryFrom, preparePipeline_lookup h.target.found h.type hwf hraw h.typed, ok_bind]
  dsimp only
  rw [preparePage_lookup, ok_bind, hplan, ok_bind, executeAccess, accessInput, hcandidates, ok_bind,
    if_neg ?_, accessedRows_of_ids h.target fun row hrow => (hmem row hrow).1, ok_bind, pure_eq_ok,
    ok_bind]
  · refine (runPipeline_lookup rfl (fun row hrow => (hmem row hrow).2) hlen _).bind ?_
    rintro ⟨state, b⟩ hstate
    obtain rfl : state = _ := hstate
    have hrows : ¬((found.take (lookup.limit + 1)).map Row.fields).length > MAX_RESULT_ROWS := by
      rw [length_map]
      rw [MAX_LOOKUP_MATCHES] at hlimit
      rw [MAX_RESULT_ROWS]
      omega
    have hdeferred : runDeferred ((found.take (lookup.limit + 1)).map Row.fields) [] = .ok _ := rfl
    dsimp only
    rw [hdeferred, ok_bind, if_neg hrows]
    exact .ok ⟨found, hperm, rfl⟩
  · rw [MAX_LOOKUP_MATCHES] at hlimit
    simp only [Option.any_some, length_map, decide_eq_true_eq, MAX_QUERY_WORKING_ROWS]
    omega

end Response

/-! ## Driver rows -/

section Drivers

theorem foldl_simplerIndex {ds : List IndexDefinition} {best : Option IndexDefinition}
    {d : IndexDefinition} (h : ds.foldl simplerIndex best = some d) : best = some d ∨ d ∈ ds := by
  induction ds generalizing best with
  | nil => exact .inl h
  | cons d' ds ih =>
    obtain hbest | hmem := ih h
    · unfold simplerIndex at hbest
      split at hbest
      · cases hbest
        exact .inr mem_cons_self
      · split at hbest
        · cases hbest
          exact .inr mem_cons_self
        · exact .inl hbest
    · exact .inr (mem_cons_of_mem _ hmem)

/-- A bound lookup: its limit is in range, its keys have the same type, and an index serves it. -/
structure LookupBound (db : Database) (schema : List Column) (lookup : Lookup)
    (table : Table) : Prop where
  limit : lookup.limit ≤ MAX_LOOKUP_MATCHES
  keys : ∃ s t, db.catalog.fieldType schema lookup.sourceKey = .ok s ∧
    db.catalog.fieldType table.schema lookup.targetKey = .ok t ∧ sameType s t = true
  served : ∃ d ∈ valuesOf (db.definitions lookup.table), d.servesLookup lookup.targetKey = true

theorem bindLookup_eq_ok {db : Database} {schema : List Column} {raw lookup : Lookup}
    {column : Column}
    (h : bindLookup db schema raw = .ok (lookup, column)) :
    ∃ table, db.table lookup.table = .ok table ∧ LookupBound db schema lookup table := by
  rw [bindLookup] at h
  obtain ⟨hlimit, h⟩ := of_refused h
  obtain ⟨-, h⟩ := of_refused h
  obtain ⟨s, hs, table, htable, h⟩ := of_bind₂ h
  obtain ⟨t, ht, h⟩ := of_bind h
  obtain ⟨hsame, h⟩ := of_refused h
  split at h
  · cases h
  · next d hd =>
    cases h
    obtain hnone | hmem := foldl_simplerIndex hd
    · cases hnone
    · exact ⟨table, htable, not_lt.mp fun hover => hlimit (.inr hover),
        ⟨s, t, hs, ht, by simpa using hsame⟩, d, mem_filter.mp hmem⟩

/-- The rows of the target whose key equals the source key of a driver row. -/
def Lookup.matchingRows (lookup : Lookup) (table : Table) (row : Fields) : List Row :=
  table.rows.filter fun target =>
    (rowField row lookup.sourceKey).any fun key => target.matchesKey lookup.targetKey key

/-- A driver row with these rows attached. -/
def Lookup.attach (lookup : Lookup) (row : Fields) (found : List Row) : Fields :=
  assocInsert lookup.name (.list (found.map fun target => .record target.fields)) row

variable [External] [Semantics] {db : Database} {schema : List Column} {lookup : Lookup}
  {table : Table} {row : Fields}

/-- The types of both keys are free of variant names that read as qualified. -/
def Lookup.PlainKeys (lookup : Lookup) (catalog : Catalog) (schema target : List Column) : Prop :=
  catalog.Everywhere ScalarType.PlainVariants ∧
    (∀ ty, catalog.fieldType schema lookup.sourceKey = .ok ty →
      ty.Everywhere ScalarType.PlainVariants) ∧
    ∀ ty, catalog.fieldType target lookup.targetKey = .ok ty →
      ty.Everywhere ScalarType.PlainVariants

/-- The source key of a driver row has the type of its column. -/
def Lookup.KeyTyped (lookup : Lookup) (catalog : Catalog) (schema : List Column) (row : Fields) :
    Prop :=
  ∃ key ty, rowField row lookup.sourceKey = some key ∧
    catalog.fieldType schema lookup.sourceKey = .ok ty ∧ catalog.HasType MAX_DEPTH ty key

/-- What a lookup needs besides typed source keys. -/
structure LookupReady (db : Database) (schema : List Column) (lookup : Lookup) (table : Table) :
    Prop where
  sound : db.catalog.Sound
  bound : ∀ c ∈ schema, c.ty.Bound
  target : LookupTarget db lookup.table table
  plain : lookup.PlainKeys db.catalog schema table.schema

theorem queryFrom_driver (h : LookupReady db schema lookup table)
    (hbound : LookupBound db schema lookup table)
    (hrow : lookup.KeyTyped db.catalog schema row) :
    ∃ key, rowField row lookup.sourceKey = some key ∧
      Returns IsLimit (queryFrom db db.rowSource (lookupPipeline lookup key)) fun response =>
        ∃ found : List Row, found.Perm (lookup.matchingRows table row) ∧
          response.rows = (found.take (lookup.limit + 1)).map Row.fields := by
  obtain ⟨hc, hschema, htarget, hplain, hsplain, htplain⟩ := h
  obtain ⟨s, t, hs, ht, hsame⟩ := hbound.keys
  have hswf := (fieldType_bound hc hschema hs).wellFormed
  have htwf := (fieldType_bound hc htarget.schema.types ht).wellFormed
  obtain ⟨key, ty, hkey, hty, htyped⟩ := hrow
  obtain rfl : ty = s := Except.ok.inj (hty.symm.trans hs)
  obtain ⟨key', hcoerce, htyped', halike⟩ := htyped.coerceInner_sameType hc.wellFormed hplain hswf
    (hsplain ty hs) htwf hsame "expression literal"
  have hmatching : lookup.matchingRows table row = table.matchingRows lookup.targetKey key' := by
    refine filter_congr fun target _ => ?_
    rw [hkey, Option.any_some, Row.matchesKey, Row.matchesKey]
    congr 1
    funext x
    exact halike x
  refine ⟨key, hkey, ?_⟩
  rw [hmatching]
  exact queryFrom_lookup ⟨hc, htarget, ht, htyped'⟩ hplain (htplain t ht) hbound.limit hbound.served
    hcoerce

/-- A limit, or the report that a driver row has too many matches, when one has. -/
def StopsLookup (lookup : Lookup) (table : Table) (rows : List Fields) (e : Error) : Prop :=
  IsLimit e ∨ e.code = .E_RELATION_LIMIT ∧
    ∃ row ∈ rows, lookup.limit < (lookup.matchingRows table row).length

/-- The matches of a driver row are few, and they are attached. -/
def Attaches (lookup : Lookup) (table : Table) (row next : Fields) : Prop :=
  (lookup.matchingRows table row).length ≤ lookup.limit ∧
    ∃ found : List Row, found.Perm (lookup.matchingRows table row) ∧ next = lookup.attach row found

theorem lookupRow_returns (h : LookupReady db schema lookup table)
    (hbound : LookupBound db schema lookup table)
    (hrow : lookup.KeyTyped db.catalog schema row) (workingBytes : ℕ) :
    Returns (StopsLookup lookup table [row]) (lookupRow db db.rowSource lookup workingBytes row)
      fun r => Attaches lookup table row r.1 := by
  obtain ⟨key, hkey, hquery⟩ := queryFrom_driver h hbound hrow
  rw [lookupRow, hkey]
  refine (hquery.relax fun e he => .inl he).bind ?_
  rintro response ⟨found, hperm, hrows⟩
  have hlength : response.rows.length = min (lookup.limit + 1)
      (lookup.matchingRows table row).length := by
    rw [hrows, length_map, length_take, hperm.length_eq]
  split
  · next hmany =>
    exact .error (.inr ⟨rfl, row, mem_singleton_self row, by omega⟩)
  · next hfew =>
    have hall : found.take (lookup.limit + 1) = found :=
      take_of_length_le (by rw [hperm.length_eq]; omega)
    have hnext : assocInsert lookup.name (.list (response.rows.map .record)) row =
        lookup.attach row found := by
      rw [hrows, hall, map_map]
      rfl
    dsimp only
    rw [hnext]
    refine ((checkStreamingRowBytes_returns _ _).relax fun e he => .inl he).bind fun _ _ => .ok ?_
    exact ⟨by omega, found, hperm, rfl⟩

theorem lookupRows_returns (h : LookupReady db schema lookup table)
    (hbound : LookupBound db schema lookup table) {rows : List Fields}
    (hrows : ∀ row ∈ rows, lookup.KeyTyped db.catalog schema row) (workingBytes : ℕ) :
    Returns (StopsLookup lookup table rows) (lookupRows db db.rowSource lookup workingBytes rows)
      (Forall₂ (Attaches lookup table) rows) := by
  induction rows generalizing workingBytes with
  | nil => exact .ok .nil
  | cons row rows ih =>
    obtain ⟨hrow, hrest⟩ := forall_mem_cons.mp hrows
    have hstop : ∀ part, (∀ r ∈ part, r ∈ row :: rows) → ∀ e, StopsLookup lookup table part e →
        StopsLookup lookup table (row :: rows) e := by
      rintro part hpart e (he | ⟨he, r, hr, hmany⟩)
      · exact .inl he
      · exact .inr ⟨he, r, hpart r hr, hmany⟩
    refine ((lookupRow_returns h hbound hrow workingBytes).relax
      (hstop [row] (by simp))).bind ?_
    rintro ⟨next, bytes⟩ hnext
    refine ((ih hrest bytes).relax (hstop rows fun r hr => mem_cons_of_mem _ hr)).bind ?_
    intro out hout
    exact .ok (.cons hnext hout)

/-- **Lookups are exact.** Every driver row gets exactly the target rows whose key equals its
source key, each once, when no driver row has more of them than the limit. Otherwise, and
only then, the lookup reports too many matches. Apart from that only a limit on rows or
bytes can stop it. Nothing depends on the index that the planner takes. Of a driver row only
the source key has to be typed. -/
theorem applyLookup_exact {raw : Lookup} {column : Column}
    (hbind : bindLookup db schema raw = .ok (lookup, column))
    (h : LookupReady db schema lookup table) {rows : List Fields}
    (hrows : ∀ row ∈ rows, lookup.KeyTyped db.catalog schema row) :
    Returns (StopsLookup lookup table rows) (applyLookup db db.rowSource lookup rows)
      (Forall₂ (Attaches lookup table) rows) := by
  obtain ⟨table', htable, hbound⟩ := bindLookup_eq_ok hbind
  obtain rfl : table' = table := Except.ok.inj (htable.symm.trans h.target.found)
  rw [applyLookup]
  split
  · exact .error (.inl rfl)
  · exact ((returns_checkMaterializedRows rows).relax fun e he => .inl he).bind fun _ _ =>
      lookupRows_returns h hbound hrows _

end Drivers

/-! ## A lookup of looked-up rows -/

section Shop

open Std

attribute [local instance] plainSemantics smallRows

def ascendingIndex (id tableId : UInt64) (column : String) (path : List UInt64) :
    IndexDefinition where
  id
  tableId
  column := ""
  fieldPath := []
  components := [⟨column, path, false⟩]
  kind := .ordinary
  predicate := none

def shopCatalog : Catalog where
  types := (∅ : ExtTreeMap String TypeDefinition).insert "Item"
    ⟨1, "Item", .record [⟨"sku", .int, none, 2⟩]⟩
  nextId := 12

/-- Items, with rows of a named type. -/
def itemsTable : Table where
  id := 1
  name := "items"
  schema := [⟨"sku", .int, none, 2⟩]
  rows := [⟨0, [("sku", .int 5)]⟩, ⟨1, [("sku", .int 6)]⟩]
  nextRowId := 2
  rowType := some 1
  primaryKey := none
  generatedDefaults := ∅

def cartFields : Fields := [("id", .int 9), ("items", .list [.named 1 (.record [("sku", .int 5)])])]

/-- Carts, each with a list of items. -/
def cartsTable : Table where
  id := 3
  name := "carts"
  schema := [⟨"id", .int, none, 4⟩, ⟨"items", .list (.ref 1), none, 5⟩]
  rows := [⟨0, cartFields⟩]
  nextRowId := 1
  rowType := none
  primaryKey := none
  generatedDefaults := ∅

/-- A column whose one variant has a name that reads as qualified. -/
def flagColumn : Column := ⟨"flag", .enum [⟨"a.b", [], 9⟩], none, 10⟩

def flagFields : Fields := [("flag", .enum "a.b" [] 9)]

def flagsTable : Table where
  id := 8
  name := "flags"
  schema := [flagColumn]
  rows := [⟨0, flagFields⟩]
  nextRowId := 1
  rowType := none
  primaryKey := none
  generatedDefaults := ∅

def itemsIndex : IndexDefinition := ascendingIndex 6 1 "sku" [2]
def cartsIndex : IndexDefinition := ascendingIndex 7 3 "items" [5]
def flagsIndex : IndexDefinition := ascendingIndex 11 8 "flag" [10]

def shopPosting (table : Table) (d : IndexDefinition) : IndexPosting :=
  (postRows shopCatalog table.schema table.name d ∅ table.rows).toOption.getD ∅

def shop : Database :=
  { Database.empty with
    catalog := shopCatalog
    objects := (((∅ : ExtTreeMap String Table).insert "carts" cartsTable).insert "items"
      itemsTable).insert "flags" flagsTable
    indexDefinitions := (((∅ : ExtTreeMap String (ExtTreeMap String IndexDefinition)).insert "carts"
      ((∅ : ExtTreeMap String IndexDefinition).insert "items" cartsIndex)).insert "items"
      ((∅ : ExtTreeMap String IndexDefinition).insert "sku" itemsIndex)).insert "flags"
      ((∅ : ExtTreeMap String IndexDefinition).insert "flag" flagsIndex)
    indexes := (((∅ : ExtTreeMap String TableIndexes).insert "carts"
      ((∅ : TableIndexes).insert "items" (shopPosting cartsTable cartsIndex))).insert "items"
      ((∅ : TableIndexes).insert "sku" (shopPosting itemsTable itemsIndex))).insert "flags"
      ((∅ : TableIndexes).insert "flag" (shopPosting flagsTable flagsIndex)) }

variable {table : Table} {lookup : Lookup}

theorem shop_target (id tableId : UInt64) (column : String) (path : List UInt64) {name : String}
    {posting : IndexPosting} (ht : shop.table name = .ok table) (hschema : SchemaBound table.schema)
    (htyped : ∀ row ∈ table.rows, shop.catalog.WellTypedFields table.schema row.fields)
    (hasc : RowsAscending table.rows) (hkey : table.primaryKey = none)
    (hdefs : shop.definitions name = (∅ : ExtTreeMap String IndexDefinition).insert
      (ascendingIndex id tableId column path).shapeKey (ascendingIndex id tableId column path))
    (hposting : (shop.tableIndexes name)[(ascendingIndex id tableId column path).shapeKey]? =
      some posting)
    (hbuild : shop.buildIndex name (ascendingIndex id tableId column path) = .ok posting)
    (hpath : shop.catalog.fieldPathIds table.schema column = .ok path) :
    LookupTarget shop name table := by
  obtain ⟨hkeyed, hrep⟩ := Database.buildIndex_represents ht hasc hbuild
  have honly : ∀ d ∈ valuesOf (shop.definitions name),
      d = ascendingIndex id tableId column path := by
    intro d hd
    rw [hdefs] at hd
    exact (mem_valuesOf_singleton.mp hd).symm
  refine ⟨ht, hschema, htyped, hasc, ⟨?_, ?_, ?_, ?_⟩, ?_, ?_, ?_⟩
  · intro shape d hd
    rw [hdefs] at hd
    obtain ⟨rfl, rfl⟩ := getElem?_singleton.mp hd
    rfl
  · intro d hd
    rw [honly d hd]
    exact hkeyed
  · intro d hd
    rw [honly d hd]
    exact ⟨posting, hposting, hrep⟩
  · intro d hd hconstrains
    rw [honly d hd, hkey] at hconstrains
    cases hconstrains
  · intro d hd
    rw [honly d hd]
    exact (by decide : 1 ≤ MAX_INDEX_COMPONENTS)
  · intro d hd component hmem
    rw [honly d hd] at hmem
    rw [mem_singleton.mp hmem]
    exact hpath
  · intro d hd predicate hpredicate
    rw [honly d hd] at hpredicate
    cases hpredicate

theorem bound_int : ScalarType.int.Bound := bound_leaf .int trivial rfl

theorem shop_items : LookupTarget shop "items" itemsTable := by
  refine shop_target 6 1 "sku" [2] rfl ⟨by decide, by simpa [itemsTable] using bound_int⟩ ?_ ?_
    rfl rfl rfl rfl (fieldPathIds_single rfl rfl)
  · intro row hrow
    obtain ⟨n, hn⟩ : ∃ n, row.fields = [("sku", .int n)] := by
      obtain rfl | rfl : row = _ ∨ row = _ := by simpa [itemsTable] using hrow
      · exact ⟨5, rfl⟩
      · exact ⟨6, rfl⟩
    rw [hn]
    refine ⟨pairwise_singleton .., by simp [itemsTable], fun c hc => ?_⟩
    rw [mem_singleton.mp hc]
    exact ⟨_, rfl, n, rfl⟩
  · exact pairwise_pair.mpr (by decide)

theorem shop_sound : shop.catalog.Sound := by
  refine ⟨by decide, fun name d h => ?_⟩
  obtain ⟨rfl, rfl⟩ := getElem?_singleton.mp h
  exact bound_record (by decide) (by decide) (by simpa using bound_int)

theorem shop_carts : LookupTarget shop "carts" cartsTable := by
  have hitems : (ScalarType.list (.ref 1)).Bound := bound_list (bound_leaf (.ref 1) trivial rfl)
  refine shop_target 7 3 "items" [5] rfl
    ⟨by decide, by simpa [cartsTable] using ⟨bound_int, hitems⟩⟩ ?_ ?_ rfl rfl rfl rfl (fieldPathIds_single rfl rfl)
  · intro row hrow
    rw [mem_singleton.mp hrow]
    refine ⟨pairwise_pair.mpr (by decide), by simp [cartFields, cartsTable], fun c hc => ?_⟩
    obtain rfl | rfl : c = _ ∨ c = _ := by simpa [cartsTable] using hc
    · exact ⟨_, rfl, 9, rfl⟩
    · have hfixed : shop.catalog.coerce (.list [.named 1 (.record [("sku", .int 5)])])
          (.list (.ref 1)) "items" = .ok (.list [.named 1 (.record [("sku", .int 5)])]) := rfl
      exact ⟨_, rfl, coerceInner_hasType shop_sound.wellFormed hitems.wellFormed hfixed⟩
  · exact pairwise_singleton ..

theorem shop_flags : LookupTarget shop "flags" flagsTable := by
  have hflag : flagColumn.ty.Bound := bound_enum (by decide) (by simp)
  refine shop_target 11 8 "flag" [10] rfl ⟨by decide, by simpa [flagsTable] using hflag⟩ ?_ ?_
    rfl rfl rfl rfl (fieldPathIds_single rfl rfl)
  · intro row hrow
    rw [mem_singleton.mp hrow]
    refine ⟨pairwise_singleton .., by simp [flagFields, flagsTable, flagColumn], fun c hc => ?_⟩
    rw [mem_singleton.mp hc]
    exact ⟨_, rfl, _, mem_singleton_self _, [], rfl, .nil⟩
  · exact pairwise_singleton ..

/-- The items of a number. -/
def itemsLookup : Lookup :=
  ⟨"found", "items", "sku", "sku", 3, some (.list (.ref 1)), some "items.sku"⟩

/-- The carts with a list of items. -/
def cartsLookup : Lookup :=
  ⟨"carts", "carts", "items", "found", 3, some (.list (.record cartsTable.schema)),
    some "carts.items"⟩

/-- The flags that are equal to a flag. -/
def flagsLookup : Lookup :=
  ⟨"same", "flags", "flag", "flag", 3, some (.list (.record [flagColumn])), some "flags.flag"⟩

def skuColumn : Column := ⟨"sku", .int, none, 0⟩
def foundColumn : Column := ⟨"found", .list (.ref 1), none, 0⟩

theorem bind_shop (schema : List Column) (lookup : Lookup) {ty : ScalarType} {d : IndexDefinition}
    (ht : LookupTarget shop lookup.table table)
    (hlimit : ¬(lookup.limit < 1 ∨ lookup.limit > MAX_LOOKUP_MATCHES))
    (hname : ¬schema.any (fun column => column.name = lookup.name) = true)
    (hsource : shop.catalog.fieldType schema lookup.sourceKey = .ok ty)
    (htarget : shop.catalog.fieldType table.schema lookup.targetKey = .ok ty)
    (hd : ((valuesOf (shop.definitions lookup.table)).filter
      (·.servesLookup lookup.targetKey)).foldl simplerIndex none = some d) :
    bindLookup shop schema lookup = .ok
      ({ lookup with
        outputType := some (.list ((table.rowType.map .ref).getD (.record table.schema)))
        index := some (lookupIndexName lookup.table d.effectiveComponents) },
        ⟨lookup.name, .list ((table.rowType.map .ref).getD (.record table.schema)), none, 0⟩) := by
  have hty := sameType_self (fieldType_bound shop_sound ht.schema.types htarget).wellFormed
  rw [bindLookup, if_neg hlimit, if_neg hname]
  simp [hsource, ht.found, htarget, hty, hd]

theorem bind_itemsLookup :
    bindLookup shop [skuColumn] itemsLookup = .ok (itemsLookup, foundColumn) :=
  bind_shop [skuColumn] itemsLookup shop_items (by decide)
    (by simp [itemsLookup, skuColumn]) rfl rfl rfl

/-- The lookup behind the first one, by the same key. -/
def againLookup : Lookup := { itemsLookup with name := "again" }

theorem bind_againLookup : bindLookup shop [skuColumn, foundColumn] againLookup =
    .ok (againLookup, { foundColumn with name := "again" }) :=
  bind_shop [skuColumn, foundColumn] againLookup shop_items (by decide)
    (by simp [againLookup, skuColumn, foundColumn]) rfl rfl rfl

theorem bind_cartsLookup : bindLookup shop [skuColumn, foundColumn] cartsLookup =
    .ok (cartsLookup, ⟨"carts", .list (.record cartsTable.schema), none, 0⟩) :=
  bind_shop [skuColumn, foundColumn] cartsLookup shop_carts (by decide)
    (by simp [cartsLookup, skuColumn, foundColumn]) rfl rfl rfl

theorem bind_flagsLookup : bindLookup shop [flagColumn] flagsLookup =
    .ok (flagsLookup, ⟨"same", .list (.record [flagColumn]), none, 0⟩) :=
  bind_shop [flagColumn] flagsLookup shop_flags (by decide)
    (by simp [flagsLookup, flagColumn]) rfl rfl rfl

/-- The query of a driver row of the shop, behind its preparation. -/
theorem queryFrom_shop {ty : ScalarType} {raw key : Value}
    (ht : LookupTarget shop lookup.table table)
    (hty : shop.catalog.fieldType table.schema lookup.targetKey = .ok ty)
    (hkey : shop.catalog.coerce raw ty "expression literal" = .ok key) :
    queryFrom shop shop.rowSource (lookupPipeline lookup raw) = (do
      let access ← planAccess shop shop.rowSource ⟨lookup.table, lookupStages lookup ty key⟩ none
      executeAccess shop shop.rowSource ⟨lookup.table, lookupStages lookup ty key⟩ table.schema
        none access) := by
  have hwf := (fieldType_bound shop_sound ht.schema.types hty).wellFormed
  have htyped := coerceInner_hasType shop_sound.wellFormed hwf hkey
  rw [queryFrom, preparePipeline_lookup ht.found hty hwf hkey htyped]
  rfl

theorem applyLookup_shop {row : Fields} {key : Value} {response : QueryResponse}
    (hrow : rowField row lookup.sourceKey = some key)
    (hquery : queryFrom shop shop.rowSource (lookupPipeline lookup key) = .ok response)
    (hlimit : ¬response.rows.length > lookup.limit) : applyLookup shop shop.rowSource lookup [row] =
      .ok [assocInsert lookup.name (.list (response.rows.map .record)) row] := by
  have hlookup : lookupRow shop shop.rowSource lookup 15 row =
      .ok (assocInsert lookup.name (.list (response.rows.map .record)) row, 15) := by
    rw [lookupRow, hrow]
    refine bind_eq_ok.mpr ⟨response, hquery, ?_⟩
    rw [if_neg hlimit]
    rfl
  rw [applyLookup, if_neg (by simp [MAX_LOOKUP_DRIVERS])]
  refine bind_eq_ok.mpr ⟨15, rfl, ?_⟩
  rw [lookupRows, hlookup]
  rfl

theorem shop_plain : shop.catalog.Everywhere ScalarType.PlainVariants := by
  intro id d hd
  obtain ⟨name, h⟩ := (definition_mem hd).2
  obtain ⟨rfl, rfl⟩ := getElem?_singleton.mp h
  refine .node trivial fun part hpart => ?_
  obtain rfl := mem_singleton.mp hpart
  exact .leaf trivial rfl

/-- A driver row that an earlier lookup has extended by bare records. -/
def foundRow : Fields := itemsLookup.attach [("sku", .int 5)] [⟨0, [("sku", .int 5)]⟩]

theorem applyLookup_exact_again :
    ¬shop.catalog.WellTypedFields [skuColumn, foundColumn] foundRow ∧
      Returns (StopsLookup againLookup itemsTable [foundRow])
        (applyLookup shop shop.rowSource againLookup [foundRow])
        (Forall₂ (Attaches againLookup itemsTable) [foundRow]) := by
  constructor
  · rintro ⟨-, -, hcolumns⟩
    obtain ⟨v, hv, items, rfl, hitems⟩ := hcolumns foundColumn (by simp)
    cases hv
    obtain ⟨inner, d, hinner, -⟩ := hitems _ (mem_singleton_self _)
    cases hinner
  · refine applyLookup_exact bind_againLookup ⟨shop_sound, ?_, shop_items, shop_plain, ?_, ?_⟩ ?_
    · simpa [skuColumn, foundColumn] using ⟨bound_int, bound_list (bound_leaf (.ref 1) trivial rfl)⟩
    · rintro ty ⟨⟩
      exact .leaf trivial rfl
    · rintro ty ⟨⟩
      exact .leaf trivial rfl
    · intro row hrow
      rw [mem_singleton.mp hrow]
      exact ⟨.int 5, .int, rfl, rfl, 5, rfl⟩

set_option maxRecDepth 8192 in
/-- **Where lookups are not exact.** The rows of a table with a row type are attached as bare
records, under the type of lists of the row type. The literal of the next query is converted
to that type, so it matches a stored list that the attached list is not equal to. A key with
a variant name that reads as qualified is refused as a literal. -/
theorem applyLookup_inexact :
    (∃ (row next : Fields) (column : Column),
      LookupTarget shop "items" itemsTable ∧ LookupTarget shop "carts" cartsTable ∧
      bindLookup shop [skuColumn] itemsLookup = .ok (itemsLookup, foundColumn) ∧
      applyLookup shop shop.rowSource itemsLookup [[("sku", .int 5)]] = .ok [row] ∧
      bindLookup shop [skuColumn, foundColumn] cartsLookup = .ok (cartsLookup, column) ∧
      applyLookup shop shop.rowSource cartsLookup [row] = .ok [next] ∧
      cartsLookup.matchingRows cartsTable row = [] ∧
      next = cartsLookup.attach row cartsTable.rows) ∧
    ∃ column : Column, LookupTarget shop "flags" flagsTable ∧
      bindLookup shop [flagColumn] flagsLookup = .ok (flagsLookup, column) ∧
      flagsLookup.KeyTyped shop.catalog [flagColumn] flagFields ∧
      flagsLookup.matchingRows flagsTable flagFields = flagsTable.rows ∧
      ∃ e, applyLookup shop shop.rowSource flagsLookup [flagFields] = .error e ∧
        e.code = .E_TYPE := by
  have hitems : queryFrom shop shop.rowSource (lookupPipeline itemsLookup (.int 5)) =
      .ok ⟨"1 row(s)", [[("sku", .int 5)]], [("sku", .int)], none⟩ := by
    have hkey : shop.catalog.coerce (.int 5) .int "expression literal" = .ok (.int 5) := rfl
    rw [queryFrom_shop shop_items rfl hkey]
    rfl
  have hcarts : queryFrom shop shop.rowSource
      (lookupPipeline cartsLookup (.list [.record [("sku", .int 5)]])) =
      .ok ⟨"1 row(s)", [cartFields], [("id", .int), ("items", .list (.ref 1))], none⟩ := by
    have hkey : shop.catalog.coerce (.list [.record [("sku", .int 5)]]) (.list (.ref 1))
        "expression literal" = .ok (.list [.named 1 (.record [("sku", .int 5)])]) := rfl
    rw [queryFrom_shop shop_carts rfl hkey]
    rfl
  refine ⟨⟨_, _, _, shop_items, shop_carts, bind_itemsLookup,
    applyLookup_shop rfl hitems (by decide), bind_cartsLookup,
    applyLookup_shop rfl hcarts (by decide), rfl, rfl⟩, _, shop_flags, bind_flagsLookup,
    ⟨_, _, rfl, rfl, _, mem_singleton_self _, [], rfl, .nil⟩, rfl, ?_⟩
  have hcode : (match applyLookup shop shop.rowSource flagsLookup [flagFields] with
      | .error e => decide (e.code = .E_TYPE)
      | .ok _ => false) = true := by decide +kernel
  split at hcode
  · next e he => exact ⟨e, he, of_decide_eq_true hcode⟩
  · cases hcode

end Shop

end UnionId
