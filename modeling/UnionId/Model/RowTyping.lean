import Mathlib.Data.List.TakeWhile
import UnionId.Model.Typed

/-!
# Typed rows and paths

A row is typed by a schema when it has exactly the columns of the schema, each with a
typed value. Paths are resolved twice: to a type before any row is read, and to a value
on each row. Both resolutions take the same way, so a path with a type has a value of
that type on every typed row. A path is also known by the identities along it, and
distinct identities make that faithful.

## Main results

* `rowField_typed` — a path with a type has a value of that type.
* `fieldPathIds_injective` — the identities along a path determine it.
-/
namespace UnionId

open Lib List

/-! ## Splitting paths -/

theorem splitDots_eq_cons {path head tail : String} (h : splitOnceDot path = some (head, tail)) :
    splitDots path = head :: splitDots tail := by
  unfold splitOnceDot at h
  split at h
  · next hmem =>
    simp only [Option.some.injEq, Prod.mk.injEq] at h
    obtain ⟨rfl, rfl⟩ := h
    have hpath := takeWhile_append_dropWhile (p := fun c => decide (c ≠ '.')) (l := path.toList)
    have hbefore : ∀ c ∈ path.toList.takeWhile (fun c => decide (c ≠ '.')), (c == '.') = false :=
      fun c hc => by simpa using mem_takeWhile_imp hc
    cases hdrop : path.toList.dropWhile (fun c => decide (c ≠ '.')) with
    | nil => simpa using dropWhile_eq_nil_iff.mp hdrop '.' hmem
    | cons c rest =>
      have hdot : c = '.' := by
        have hhead := head?_dropWhile_not (fun c => decide (c ≠ '.')) path.toList
        rw [hdrop] at hhead
        simpa using hhead
      rw [hdrop, hdot] at hpath
      have hsplit : path.toList.splitOn '.' =
          path.toList.takeWhile (fun c => decide (c ≠ '.')) :: rest.splitOn '.' := by
        conv_lhs => rw [← hpath]
        exact splitOnP_append_cons_of_forall_mem hbefore '.' (by simp) rest
      simp [splitDots, hsplit]
  · cases h

theorem splitDots_eq_single {path : String} (h : splitOnceDot path = none) :
    splitDots path = [path] := by
  unfold splitOnceDot at h
  split at h
  · cases h
  · next hmem =>
    have hnone : ∀ c ∈ path.toList, (c == '.') = false := fun c hc => by
      simpa using fun heq : c = '.' => hmem (heq ▸ hc)
    simp [splitDots, splitOn_eq_singleton_of_beq_eq_false hnone]

theorem splitDots_injective : Function.Injective splitDots := by
  intro a b h
  have hlists : a.toList.splitOn '.' = b.toList.splitOn '.' :=
    map_injective_iff.mpr (fun _ _ h => String.ofList_injective h) h
  have hjoin := congrArg ['.'].intercalate hlists
  rw [intercalate_splitOn, intercalate_splitOn] at hjoin
  exact String.toList_injective hjoin

namespace Catalog

variable {catalog : Catalog} {columns : List Column} {path : String} {ty : ScalarType}
  {parts : List String} {ids : List UInt64}

theorem findColumn_eq_some {name : String} {d : Column}
    (h : findColumn columns name = some d) : d ∈ columns ∧ d.name = name :=
  ⟨mem_of_find?_eq_some h, by simpa using find?_some h⟩

/-! ## Values of paths -/

theorem recordColumns_eq_ok (h : catalog.recordColumns path ty = .ok columns) :
    catalog.underlying ty = .ok (.record columns) := by
  obtain ⟨u, hu, h⟩ := of_bind h
  cases u with
  | record _ =>
    cases h
    exact hu
  | _ => cases h

/-- The structural type of a value of bounded depth. -/
theorem underlyingWithin_hasType {n m : ℕ} {u : ScalarType}
    (h : catalog.underlyingWithin n ty = .ok u) {v : Value} (hv : catalog.HasType m ty v) :
    catalog.HasType m u v.unwrapped := by
  induction n generalizing ty m v with
  | zero => simp [underlyingWithin] at h
  | succ n ih =>
    cases ty with
    | ref id =>
      obtain ⟨d, hd, h⟩ := of_bind h
      cases m with
      | zero => cases hv
      | succ m =>
        obtain ⟨inner, d', rfl, hd', hinner⟩ := hv
        cases hd'.symm.trans hd
        exact (ih h hinner).succ
    | _ =>
      cases h
      have htyped : catalog.Typed _ v := ⟨m, hv⟩
      rwa [htyped.unwrapped_eq (by simp)]

section Follow
variable {P : ScalarType → Value → Prop}

/-- A property of typed values that the fields of a record inherit. -/
def Inherited (catalog : Catalog) (P : ScalarType → Value → Prop) : Prop :=
  ∀ (ty : ScalarType) (columns : List Column) (v : Value), P ty v →
    catalog.underlying ty = .ok (.record columns) → ∃ fields, v.unwrapped = .record fields ∧
      ∀ c ∈ columns, ∃ w, fields.lookup c.name = some w ∧ P c.ty w

theorem inherited_typed : catalog.Inherited catalog.Typed := by
  intro ty columns v hv hunder
  obtain ⟨fields, hval, hfields⟩ := typed_record.mp ((underlying_typed hunder).1 v hv)
  exact ⟨fields, hval, hfields.2.2⟩

theorem inherited_hasType (n : ℕ) : catalog.Inherited (catalog.HasType n) := by
  intro ty columns v hv hunder
  have hrecord := underlyingWithin_hasType hunder hv
  cases n with
  | zero => cases hrecord
  | succ n =>
    obtain ⟨fields, hval, -, -, hcols⟩ := hrecord
    refine ⟨fields, hval, fun c hc => ?_⟩
    obtain ⟨w, hw, htyped⟩ := hcols c hc
    exact ⟨w, hw, htyped.succ⟩

variable {path : String} {ty : ScalarType}

theorem followFields_inherits (hP : catalog.Inherited P) {ty' : ScalarType}
    {parts : List String} (h : catalog.followFields path ty parts = .ok ty') {v : Value}
    (hv : P ty v) : ∃ w, v.fieldAt parts = some w ∧ P ty' w := by
  induction parts generalizing ty v with
  | nil =>
    cases h
    exact ⟨v, rfl, hv⟩
  | cons part parts ih =>
    obtain ⟨columns, hcolumns, hrest⟩ := of_bind h
    cases hfind : findColumn columns part with
    | none =>
      rw [hfind] at hrest
      cases hrest
    | some c =>
      rw [hfind] at hrest
      obtain ⟨hc, rfl⟩ := findColumn_eq_some hfind
      obtain ⟨fields, hval, hfields⟩ := hP ty columns v hv (recordColumns_eq_ok hcolumns)
      obtain ⟨w, hw, htyped⟩ := hfields c hc
      obtain ⟨out, hout, hresult⟩ := ih hrest htyped
      exact ⟨out, by simp [Value.fieldAt, hval, hw, hout], hresult⟩

/-- A path with a type is a column, or leads from a column through records. -/
theorem fieldType_cases {schema : List Column} (h : catalog.fieldType schema path = .ok ty) :
    (∃ c ∈ schema, c.name = path ∧ c.ty = ty) ∨
      (∀ c ∈ schema, c.name ≠ path) ∧ ∃ head tail, splitOnceDot path = some (head, tail) ∧
        ∃ c ∈ schema, c.name = head ∧ catalog.followFields path c.ty (splitDots tail) = .ok ty := by
  unfold fieldType at h
  cases hfind : findColumn schema path with
  | some c =>
    rw [hfind] at h
    cases h
    obtain ⟨hc, hname⟩ := findColumn_eq_some hfind
    exact .inl ⟨c, hc, hname, rfl⟩
  | none =>
    rw [hfind] at h
    refine .inr ⟨fun c hc => by simpa using find?_eq_none.mp hfind c hc, ?_⟩
    cases hdot : splitOnceDot path with
    | none =>
      rw [splitDots_eq_single hdot] at h
      simp only [hfind] at h
      cases h
    | some parts =>
      obtain ⟨head, tail⟩ := parts
      rw [splitDots_eq_cons hdot] at h
      cases hhead : findColumn schema head with
      | none =>
        simp only [hhead] at h
        cases h
      | some c =>
        simp only [hhead] at h
        obtain ⟨hc, hname⟩ := findColumn_eq_some hhead
        exact ⟨head, tail, rfl, c, hc, hname, h⟩

theorem rowField_inherits (hP : catalog.Inherited P) {schema : List Column} {row : Fields}
    (hknown : ∀ p ∈ row, ∃ c ∈ schema, c.name = p.1)
    (hrow : ∀ c ∈ schema, ∃ v, row.lookup c.name = some v ∧ P c.ty v)
    (h : catalog.fieldType schema path = .ok ty) :
    ∃ v, rowField row path = some v ∧ P ty v := by
  obtain ⟨c, hc, rfl, rfl⟩ | ⟨hno, head, tail, hdot, c, hc, rfl, h⟩ := fieldType_cases h
  · obtain ⟨v, hv, htyped⟩ := hrow c hc
    exact ⟨v, by simp [rowField, hv], htyped⟩
  · -- no column has the whole path for its name, so the row has no such key either
    have hnone : row.lookup path = none := by
      by_contra hsome
      obtain ⟨v, hv⟩ := Option.ne_none_iff_exists'.mp hsome
      obtain ⟨c, hc, hname⟩ := hknown _ (mem_of_lookup hv)
      exact hno c hc hname
    obtain ⟨v, hv, htyped⟩ := hrow c hc
    obtain ⟨w, hw, hresult⟩ := followFields_inherits hP h htyped
    exact ⟨w, by simp [rowField, hnone, hdot, hv, Value.field, hw], hresult⟩

end Follow

/-- **A path with a type has a value of that type on every typed row.** -/
theorem rowField_typed {schema : List Column} {row : Fields} (hrow : catalog.TypedFields schema row)
    (h : catalog.fieldType schema path = .ok ty) :
    ∃ v, rowField row path = some v ∧ catalog.Typed ty v :=
  rowField_inherits inherited_typed hrow.2.1 hrow.2.2 h

/-! ## Types of paths -/

theorem underlyingWithin_bound (hc : catalog.Sound) {n : ℕ} {u : ScalarType} (hty : ty.Bound)
    (h : catalog.underlyingWithin n ty = .ok u) : u.Bound := by
  induction n generalizing ty with
  | zero => simp [underlyingWithin] at h
  | succ n ih =>
    cases ty with
    | ref id =>
      obtain ⟨d, hd, h⟩ := of_bind h
      exact ih ⟨hc.wellFormed id d hd, hc.uniqueIds id d hd⟩ h
    | _ =>
      cases h
      exact hty

theorem followFields_bound (hc : catalog.Sound) {ty' : ScalarType} (hty : ty.Bound)
    (h : catalog.followFields path ty parts = .ok ty') :
    ty'.Bound := by
  induction parts generalizing ty with
  | nil =>
    cases h
    exact hty
  | cons part parts ih =>
    obtain ⟨columns, hcolumns, hrest⟩ := of_bind h
    cases hfind : findColumn columns part with
    | none =>
      rw [hfind] at hrest
      cases hrest
    | some c =>
      rw [hfind] at hrest
      obtain ⟨hmem, -⟩ := findColumn_eq_some hfind
      obtain ⟨hwf, hids⟩ := underlyingWithin_bound hc hty (recordColumns_eq_ok hcolumns)
      cases hwf with
      | record names types => exact ih ⟨types c hmem, hids.field hmem⟩ hrest

theorem fieldType_bound (hc : catalog.Sound) {schema : List Column}
    (hschema : ∀ c ∈ schema, c.ty.Bound)
    (h : catalog.fieldType schema path = .ok ty) : ty.Bound := by
  obtain ⟨c, hc', rfl, rfl⟩ | ⟨-, head, tail, -, c, hc', rfl, h⟩ := fieldType_cases h
  · exact hschema c hc'
  · exact followFields_bound hc (hschema c hc') h

/-! ## Well-typed rows -/

/-- The columns of a schema and no others, each with a value of its type within the depth
limit. -/
def WellTypedFields (catalog : Catalog) (schema : List Column) (row : Fields) : Prop :=
  KeysSorted row ∧ (∀ p ∈ row, ∃ c ∈ schema, c.name = p.1) ∧
    ∀ c ∈ schema, ∃ v, row.lookup c.name = some v ∧ catalog.HasType MAX_DEPTH c.ty v

namespace WellTypedFields

variable {schema : List Column} {row : Fields}

theorem typed (h : catalog.WellTypedFields schema row) : catalog.TypedFields schema row := by
  refine ⟨h.1, h.2.1, fun c hmem => ?_⟩
  obtain ⟨v, hv, htyped⟩ := h.2.2 c hmem
  exact ⟨v, hv, _, htyped⟩

/-- A path with a type has a value of that type on every well-typed row. -/
theorem rowField (h : catalog.WellTypedFields schema row) {path : String} {ty : ScalarType}
    (hty : catalog.fieldType schema path = .ok ty) :
    ∃ v, rowField row path = some v ∧ catalog.HasType MAX_DEPTH ty v :=
  rowField_inherits (inherited_hasType MAX_DEPTH) h.2.1 h.2.2 hty

end WellTypedFields

/-! ## Identities of paths -/

theorem fieldPathIds_single {schema : List Column} (hdot : splitOnceDot path = none)
    (h : catalog.pathIds path schema [path] = .ok ids) :
    catalog.fieldPathIds schema path = .ok ids := by
  rwa [fieldPathIds, splitDots_eq_single hdot]

theorem pathIds_cons {part : String} (h : catalog.pathIds path columns (part :: parts) = .ok ids) :
    ∃ c rest, findColumn columns part = some c ∧ ids = c.id :: rest ∧
      (parts = [] ∧ rest = [] ∨ parts ≠ [] ∧ ∃ nested,
        catalog.recordColumns path c.ty = .ok nested ∧
        catalog.pathIds path nested parts = .ok rest) := by
  rw [pathIds] at h
  cases hfind : findColumn columns part with
  | none =>
    rw [hfind] at h
    cases h
  | some c =>
    rw [hfind] at h
    cases parts with
    | nil =>
      cases h
      exact ⟨c, [], rfl, rfl, .inl ⟨rfl, rfl⟩⟩
    | cons next parts =>
      obtain ⟨nested, hnested, rest, hrest, h⟩ := of_bind₂ h
      cases h
      exact ⟨c, rest, rfl, rfl, .inr ⟨by simp, nested, hnested, hrest⟩⟩

theorem pathIds_ne_nil (hparts : parts ≠ []) (h : catalog.pathIds path columns parts = .ok ids) :
    ids ≠ [] := by
  obtain ⟨part, parts, rfl⟩ := exists_cons_of_ne_nil hparts
  obtain ⟨c, rest, -, rfl, -⟩ := pathIds_cons h
  simp

theorem pathIds_injective (hcatalog : catalog.Everywhere ScalarType.UniqueIds)
    {path' : String} (hids : (columns.map fun c => c.id).Nodup)
    (hcolumns : ∀ c ∈ columns, c.ty.Everywhere ScalarType.UniqueIds) {parts' : List String}
    (h : catalog.pathIds path columns parts = .ok ids)
    (h' : catalog.pathIds path' columns parts' = .ok ids) : parts = parts' := by
  induction parts generalizing columns parts' ids with
  | nil =>
    cases h
    by_contra hne
    exact pathIds_ne_nil (Ne.symm hne) h' rfl
  | cons part parts ih =>
    obtain ⟨c, rest, hfind, rfl, hrest⟩ := pathIds_cons h
    cases parts' with
    | nil => cases h'
    | cons part' parts' =>
      obtain ⟨c', rest', hfind', heq, hrest'⟩ := pathIds_cons h'
      rw [List.cons.injEq] at heq
      obtain ⟨hid, rfl⟩ := heq
      obtain ⟨hmem, rfl⟩ := findColumn_eq_some hfind
      obtain ⟨hmem', rfl⟩ := findColumn_eq_some hfind'
      obtain rfl := inj_on_of_nodup_map hids hmem hmem' hid
      congr 1
      obtain ⟨rfl, rfl⟩ | ⟨hne, nested, hnested, hpath⟩ := hrest
      · obtain ⟨rfl, -⟩ | ⟨hne', nested', -, hpath'⟩ := hrest'
        · rfl
        · exact absurd rfl (pathIds_ne_nil hne' hpath')
      · obtain ⟨rfl, rfl⟩ | ⟨-, nested', hnested', hpath'⟩ := hrest'
        · exact absurd rfl (pathIds_ne_nil hne hpath)
        · have hu := recordColumns_eq_ok hnested
          have hu' := recordColumns_eq_ok hnested'
          cases hu.symm.trans hu'
          have hunique := underlyingWithin_everywhere hcatalog (hcolumns c hmem) hu
          exact ih hunique.here (fun d hd => hunique.field hd) hpath hpath'

/-- **The identities along a path determine it.** -/
theorem fieldPathIds_injective (hcatalog : catalog.Everywhere ScalarType.UniqueIds)
    (hids : (columns.map fun c => c.id).Nodup)
    (hcolumns : ∀ c ∈ columns, c.ty.Everywhere ScalarType.UniqueIds) {path' : String}
    (h : catalog.fieldPathIds columns path = .ok ids)
    (h' : catalog.fieldPathIds columns path' = .ok ids) : path = path' :=
  splitDots_injective (pathIds_injective hcatalog hids hcolumns h h')

end Catalog
end UnionId
