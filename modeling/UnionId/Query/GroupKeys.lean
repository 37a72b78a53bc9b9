import UnionId.Model.RowTyping
import UnionId.OrderedKey.Typed

/-!
# Groups of rows

Rows are put together by the texts of the index keys of some fields. On typed rows equal
texts are equal values, so the groups are the classes of rows with equal fields.
-/
namespace UnionId

open Lib List

/-- What the model leaves open about the text of an index key. -/
class KeyTexts where
  keyText : IndexKey → String
  keyText_injective : Function.Injective keyText

/-- An index key as text. -/
def Value.keyText [KeyTexts] (v : Value) : String := KeyTexts.keyText v.indexKey

/-- Rows with equal group fields. -/
def sameGroup (groupBy : List String) (r s : Fields) : Bool :=
  groupBy.all fun path =>
    match rowField r path, rowField s path with
    | some v, some w => v.cmpEq w
    | _, _ => false

section
variable [KeyTexts] {catalog : Catalog} {schema : List Column} {groupBy : List String}

def groupKey (groupBy : List String) (row : Fields) : Option (List String) :=
  groupBy.mapM fun path => (rowField row path).map Value.keyText

theorem groupKey_cons {row : Fields} {path : String} {v : Value} (hv : rowField row path = some v) :
    groupKey (path :: groupBy) row = (groupKey groupBy row).map (v.keyText :: ·) := by
  rw [groupKey, mapM_cons, hv, groupKey]
  cases groupBy.mapM fun path => (rowField row path).map Value.keyText <;> rfl

theorem groupKey_eq_some (hpaths : ∀ path ∈ groupBy, ∃ ty, catalog.fieldType schema path = .ok ty)
    {row : Fields} (hrow : catalog.TypedFields schema row) :
    ∃ key, groupKey groupBy row = some key := by
  induction groupBy with
  | nil => exact ⟨[], rfl⟩
  | cons path paths ih =>
    obtain ⟨⟨ty, hty⟩, hpaths⟩ := forall_mem_cons.mp hpaths
    obtain ⟨v, hv, -⟩ := Catalog.rowField_typed hrow hty
    obtain ⟨key, hkey⟩ := ih hpaths
    exact ⟨v.keyText :: key, by rw [groupKey_cons hv, hkey]; rfl⟩

/-- Typed values of one type with one text are equal, and so are they by structure. -/
theorem keyText_inj (hc : catalog.WellFormed) {ty : ScalarType} (hty : ty.WellFormed) {v w : Value}
    (hv : catalog.Typed ty v) (hw : catalog.Typed ty w) :
    (v.keyText = w.keyText ↔ v = w) ∧ (v.cmpEq w = true ↔ v = w) := by
  obtain ⟨n, hv⟩ := hv
  obtain ⟨m, hw⟩ := hw
  have hv := hv.mono (le_max_left n m)
  have hw := hw.mono (le_max_right n m)
  rw [Value.keyText, Value.keyText, KeyTexts.keyText_injective.eq_iff]
  exact ⟨hv.indexKey_inj hc hty hw, hv.cmpEq_iff hc hty hw⟩

/-- Equal keys are equal group fields. -/
theorem sameGroup_iff (hc : catalog.Sound) (hschema : ∀ c ∈ schema, c.ty.Bound)
    (hpaths : ∀ path ∈ groupBy, ∃ ty, catalog.fieldType schema path = .ok ty) {r s : Fields}
    (hr : catalog.TypedFields schema r) (hs : catalog.TypedFields schema s) :
    sameGroup groupBy r s = true ↔ groupKey groupBy s = groupKey groupBy r := by
  induction groupBy with
  | nil => exact ⟨fun _ => rfl, fun _ => rfl⟩
  | cons path paths ih =>
    obtain ⟨⟨ty, hty⟩, hpaths⟩ := forall_mem_cons.mp hpaths
    obtain ⟨v, hv, htyped⟩ := Catalog.rowField_typed hr hty
    obtain ⟨w, hw, htyped'⟩ := Catalog.rowField_typed hs hty
    have hbound := Catalog.fieldType_bound hc hschema hty
    obtain ⟨htext, heq⟩ := keyText_inj hc.wellFormed hbound.wellFormed htyped htyped'
    obtain ⟨key, hkey⟩ := groupKey_eq_some hpaths hr
    obtain ⟨key', hkey'⟩ := groupKey_eq_some hpaths hs
    have hrest : sameGroup paths r s = true ↔ key' = key := by
      rw [ih hpaths, hkey, hkey', Option.some.injEq]
    have hhead : v.cmpEq w = true ↔ w.keyText = v.keyText := by
      rw [heq, ← htext, eq_comm]
    have hcons : sameGroup (path :: paths) r s = (v.cmpEq w && sameGroup paths r s) := by
      rw [sameGroup, all_cons, hv, hw, sameGroup]
    rw [hcons, Bool.and_eq_true, hhead, hrest, groupKey_cons hv, groupKey_cons hw, hkey, hkey']
    simp

end

/-! ## Texts of keys

The assumption on the texts can be met: a text that starts no other text. -/

namespace IndexKey

mutual
/-- A text of a key, no text of another key starts with it. -/
def code : IndexKey → List Char
  | .null => ['n']
  | .bool b => ['b', if b then 't' else 'f']
  | .number z => 'i' :: (if z < 0 then '-' else '+') :: codeText (replicate z.natAbs '1')
  | .string s => '"' :: codeText s.toList
  | .array items => '[' :: codeItems items
def codeText : List Char → List Char
  | [] => ['.']
  | c :: cs => 'c' :: c :: codeText cs
def codeItems : List IndexKey → List Char
  | [] => [']']
  | k :: ks => ',' :: (code k ++ codeItems ks)
end

theorem codeText_inj {s t r r' : List Char} (h : codeText s ++ r = codeText t ++ r') :
    s = t ∧ r = r' := by
  induction s generalizing t with
  | nil => cases t <;> simp_all [codeText]
  | cons c s ih =>
    cases t with
    | nil => simp [codeText] at h
    | cons d t =>
      simp only [codeText, List.cons_append, List.cons.injEq, true_and] at h
      obtain ⟨rfl, h⟩ := h
      obtain ⟨rfl, rfl⟩ := ih h
      exact ⟨rfl, rfl⟩

mutual
theorem code_inj (a b : IndexKey) {r r' : List Char} (h : code a ++ r = code b ++ r') :
    a = b ∧ r = r' := by
  cases a with
  | null => cases b <;> simp_all [code]
  | bool x => cases b with
    | bool y => cases x <;> cases y <;> simp_all [code]
    | _ => simp [code] at h
  | number x => cases b with
    | number y =>
      simp only [code, List.cons_append, List.cons.injEq, true_and] at h
      obtain ⟨hsign, h⟩ := h
      obtain ⟨hunary, rfl⟩ := codeText_inj h
      have habs : x.natAbs = y.natAbs := by simpa using congrArg List.length hunary
      refine ⟨congrArg number ?_, rfl⟩
      split at hsign <;> split at hsign <;> first | omega | simp at hsign
    | _ => simp [code] at h
  | string x => cases b with
    | string y =>
      simp only [code, List.cons_append, List.cons.injEq, true_and] at h
      obtain ⟨hs, rfl⟩ := codeText_inj h
      exact ⟨congrArg string (String.toList_injective hs), rfl⟩
    | _ => simp [code] at h
  | array x => cases b with
    | array y =>
      simp only [code, List.cons_append, List.cons.injEq, true_and] at h
      obtain ⟨rfl, rfl⟩ := codeItems_inj x y h
      exact ⟨rfl, rfl⟩
    | _ => simp [code] at h
theorem codeItems_inj (as bs : List IndexKey) {r r' : List Char}
    (h : codeItems as ++ r = codeItems bs ++ r') : as = bs ∧ r = r' := by
  cases as with
  | nil => cases bs <;> simp_all [codeItems]
  | cons a as =>
    cases bs with
    | nil => simp [codeItems] at h
    | cons b bs =>
      simp only [codeItems, List.cons_append, List.cons.injEq, true_and, List.append_assoc] at h
      obtain ⟨rfl, hrest⟩ := code_inj a b h
      obtain ⟨rfl, rfl⟩ := codeItems_inj as bs hrest
      exact ⟨rfl, rfl⟩
end

end IndexKey

/-- Key texts as above. -/
@[reducible] def codeTexts : KeyTexts where
  keyText k := String.ofList k.code
  keyText_injective a b h :=
    (IndexKey.code_inj a b (by simpa using String.ofList_injective h :
      a.code ++ [] = b.code ++ [])).1

end UnionId
