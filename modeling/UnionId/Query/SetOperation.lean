import UnionId.Canonical
import UnionId.Lib.Buckets

/-!
# Set operations

Union, intersection and difference of two row lists. Rows are equal if they are equal in
every column, and the rows seen so far are looked up in buckets under a 64-bit hash. The
hasher is arbitrary: equal values are fed to it alike, so a collision can only put unequal
rows into one bucket, where the comparison tells them apart.

## Main results

* `Value.hashTypedValue_of_cmpEq` — equal values hash alike.
* `applySetOperation_eq` — the operations select the rows they are for.
-/
namespace UnionId

open Lib List

/-! ## Values with ordered keys -/

namespace Value

mutual
/-- Every record and map inside has its keys in order, as an ordered map has. -/
def Ordered : Value → Prop
  | .enum _ args _ => OrderedItems args
  | .record fields => KeysSorted fields ∧ OrderedEntries fields
  | .tuple items => OrderedItems items
  | .list items => OrderedItems items
  | .map entries => KeysSorted entries ∧ OrderedEntries entries
  | .option (some v) => v.Ordered
  | .named _ v => v.Ordered
  | _ => True

def OrderedItems : List Value → Prop
  | [] => True
  | v :: vs => v.Ordered ∧ OrderedItems vs

def OrderedEntries : List (String × Value) → Prop
  | [] => True
  | (_, v) :: rest => v.Ordered ∧ OrderedEntries rest
end

variable {a b : List (String × Value)}

/-- Two ordered lists of entries with equal entries have the same keys. -/
theorem keys_eq_of_equalEntries (ha : KeysSorted a) (hb : KeysSorted b)
    (hlength : a.length = b.length) (h : equalEntries a b = true) :
    a.map Prod.fst = b.map Prod.fst := by
  have hsub : ∀ k ∈ a.map Prod.fst, k ∈ b.map Prod.fst := by
    intro k hk
    obtain ⟨p, hp, rfl⟩ := mem_map.mp hk
    obtain ⟨w, hw, -⟩ := equalEntries_iff.mp h p hp
    exact mem_map.mpr ⟨(p.1, w), mem_of_lookup hw, rfl⟩
  have hsorted : ∀ l : List (String × Value), KeysSorted l →
      (l.map Prod.fst).Pairwise (· < ·) := fun l hl => pairwise_map.mpr hl
  have hnodup : (a.map Prod.fst).Nodup := (hsorted a ha).imp fun h => ne_of_lt h
  have hperm : (a.map Prod.fst).Perm (b.map Prod.fst) :=
    (subperm_of_subset hnodup hsub).perm_of_length_le (by simp [hlength])
  exact hperm.eq_of_pairwise' (hsorted a ha) (hsorted b hb)

/-! ## What is equal to a value -/

section Inversion
variable {x : Value} {as bs : List Value} {id : UInt64} {name : String}

theorem cmpEq_float {n : UInt64} : (Value.float n).cmpEq x = true ↔
    ∃ m, x = .float m ∧ Float64.numEq n m = true := by
  cases x <;> simp [cmpEq]

theorem cmpEq_named {v : Value} : (Value.named id v).cmpEq x = true ↔
    ∃ w, x = .named id w ∧ v.cmpEq w = true := by
  cases x with
  | named id' w =>
    simp only [cmpEq, Bool.and_eq_true, decide_eq_true_eq, named.injEq]
    grind
  | _ => simp [cmpEq]

/-- A variant is compared by identity, and by name where it has none. -/
theorem cmpEq_enum : (Value.enum name as id).cmpEq x = true ↔
    ∃ name' bs, x = .enum name' bs id ∧ (id = 0 → name = name') ∧ equalItems as bs = true := by
  cases x with
  | enum name' bs id' =>
    by_cases hid : id = id'
    · subst hid
      by_cases hzero : id = 0 <;> simp [cmpEq, hzero]
    · simp [cmpEq, hid, Ne.symm hid]
  | _ => simp [cmpEq]

theorem cmpEq_record : (Value.record a).cmpEq x = true ↔
    ∃ b, x = .record b ∧ a.length = b.length ∧ equalEntries a b = true := by
  cases x <;> simp [cmpEq]

theorem cmpEq_tuple : (Value.tuple as).cmpEq x = true ↔
    ∃ bs, x = .tuple bs ∧ equalItems as bs = true := by
  cases x <;> simp [cmpEq]

theorem cmpEq_list : (Value.list as).cmpEq x = true ↔
    ∃ bs, x = .list bs ∧ equalItems as bs = true := by
  cases x <;> simp [cmpEq]

theorem cmpEq_map : (Value.map a).cmpEq x = true ↔
    ∃ b, x = .map b ∧ a.length = b.length ∧ equalEntries a b = true := by
  cases x <;> simp [cmpEq]

theorem cmpEq_none : (Value.option none).cmpEq x = true ↔ x = .option none := by
  cases x with
  | option o => cases o <;> simp [cmpEq]
  | _ => simp [cmpEq]

theorem cmpEq_some {v : Value} : (Value.option (some v)).cmpEq x = true ↔
    ∃ w, x = .option (some w) ∧ v.cmpEq w = true := by
  cases x with
  | option o => cases o <;> simp [cmpEq]
  | _ => simp [cmpEq]

theorem equalItems_nil : equalItems [] bs = true ↔ bs = [] := by
  cases bs <;> simp [equalItems]

theorem equalItems_cons {v : Value} : equalItems (v :: as) bs = true ↔
    ∃ w rest, bs = w :: rest ∧ v.cmpEq w = true ∧ equalItems as rest = true := by
  cases bs <;> simp [equalItems]

end Inversion

/-! ## Equal values hash alike -/

theorem length_of_equalItems {as bs : List Value} (h : equalItems as bs = true) :
    as.length = bs.length := by
  induction as generalizing bs with
  | nil => rw [equalItems_nil.mp h]
  | cons a as ih =>
    obtain ⟨b, bs, rfl, -, h⟩ := equalItems_cons.mp h
    rw [length_cons, length_cons, ih h]

/-- In an ordered list, the entry at the head of the right side is the one looked up. -/
theorem equalEntries_cons {k : String} {v w : Value}
    (hsorted : KeysSorted ((k, v) :: a)) (h : equalEntries ((k, v) :: a) ((k, w) :: b) = true) :
    v.cmpEq w = true ∧ equalEntries a b = true := by
  have hall := equalEntries_iff.mp h
  constructor
  · obtain ⟨u, hu, hvu⟩ := hall (k, v) mem_cons_self
    rw [lookup_cons_self] at hu
    cases hu
    exact hvu
  · refine equalEntries_iff.mpr fun p hp => ?_
    obtain ⟨u, hu, hpu⟩ := hall p (mem_cons_of_mem _ hp)
    have hlt : k < p.1 := rel_of_pairwise_cons hsorted hp
    rw [lookup_cons, beq_false_of_ne (ne_of_gt hlt)] at hu
    exact ⟨u, hu, hpu⟩

section Hash
variable {σ : Type} [RowHasher σ]

mutual
/-- **Equal values hash alike.** -/
theorem hashTypedValue_of_cmpEq : ∀ {a b : Value}, a.Ordered → b.Ordered → a.cmpEq b = true →
    ∀ state : σ, a.hashTypedValue state = b.hashTypedValue state
  | .int _, _, _, _, h, _ | .bool _, _, _, _, h, _ | .text _, _, _, _, h, _
  | .uuid _, _, _, _, h, _ | .date _, _, _, _, h, _ | .timestamp _, _, _, _, h, _
  | .duration _, _, _, _, h, _ | .decimal _, _, _, _, h, _ | .bytes _, _, _, _, h, _
  | .null, _, _, _, h, _ => by rw [eq_of_cmpEq_leaf rfl h]
  | .float _, _, _, _, h, state => by
    obtain ⟨m, rfl, heq⟩ := cmpEq_float.mp h
    simp only [Float64.numEq, Bool.and_eq_true, decide_eq_true_eq] at heq
    simp only [hashTypedValue, Float64.normalizeZero_congr heq.2]
  | .enum name as id, _, ha, hb, h, state => by
    obtain ⟨name', bs, rfl, hname, heq⟩ := cmpEq_enum.mp h
    have hitems := hashItems_of_equalItems ha hb heq
    by_cases hzero : id = 0
    · simp only [hashTypedValue, hname hzero, hitems]
    · simp only [hashTypedValue, if_neg hzero, hitems]
  | .record a, _, ha, hb, h, state => by
    obtain ⟨b, rfl, hlen, heq⟩ := cmpEq_record.mp h
    have hkeys := keys_eq_of_equalEntries ha.1 hb.1 hlen heq
    simp only [hashTypedValue, hlen, hashEntries_of_equalEntries ha.1 ha.2 hb.2 hkeys heq]
  | .tuple a, _, ha, hb, h, state => by
    obtain ⟨b, rfl, heq⟩ := cmpEq_tuple.mp h
    simp only [hashTypedValue, length_of_equalItems heq, hashItems_of_equalItems ha hb heq]
  | .list a, _, ha, hb, h, state => by
    obtain ⟨b, rfl, heq⟩ := cmpEq_list.mp h
    simp only [hashTypedValue, length_of_equalItems heq, hashItems_of_equalItems ha hb heq]
  | .map a, _, ha, hb, h, state => by
    obtain ⟨b, rfl, hlen, heq⟩ := cmpEq_map.mp h
    have hkeys := keys_eq_of_equalEntries ha.1 hb.1 hlen heq
    simp only [hashTypedValue, hlen, hashEntries_of_equalEntries ha.1 ha.2 hb.2 hkeys heq]
  | .option none, _, _, _, h, state => by rw [cmpEq_none.mp h]
  | .option (some v), _, ha, hb, h, state => by
    obtain ⟨w, rfl, heq⟩ := cmpEq_some.mp h
    have hv : v.Ordered := ha
    have hw : w.Ordered := hb
    simp only [hashTypedValue, hashTypedValue_of_cmpEq hv hw heq]
  | .named id v, _, ha, hb, h, state => by
    obtain ⟨w, rfl, heq⟩ := cmpEq_named.mp h
    have hv : v.Ordered := ha
    have hw : w.Ordered := hb
    simp only [hashTypedValue, hashTypedValue_of_cmpEq hv hw heq]

theorem hashItems_of_equalItems : ∀ {as bs : List Value}, OrderedItems as → OrderedItems bs →
    equalItems as bs = true → ∀ state : σ, hashItems as state = hashItems bs state
  | [], _, _, _, h, state => by rw [equalItems_nil.mp h]
  | a :: as, _, ha, hb, h, state => by
    obtain ⟨b, bs, rfl, hab, heq⟩ := equalItems_cons.mp h
    simp only [hashItems, hashTypedValue_of_cmpEq ha.1 hb.1 hab,
      hashItems_of_equalItems ha.2 hb.2 heq]

theorem hashEntries_of_equalEntries : ∀ {as bs : List (String × Value)}, KeysSorted as →
    OrderedEntries as → OrderedEntries bs → as.map Prod.fst = bs.map Prod.fst →
    equalEntries as bs = true → ∀ state : σ, hashEntries as state = hashEntries bs state
  | [], bs, _, _, _, hkeys, _, state => by
    cases bs with
    | nil => rfl
    | cons b bs => simp at hkeys
  | (k, v) :: as, bs, hsorted, ha, hb, hkeys, h, state => by
    cases bs with
    | nil => simp at hkeys
    | cons b bs =>
      obtain ⟨k', w⟩ := b
      simp only [map_cons, List.cons.injEq] at hkeys
      obtain ⟨rfl, hkeys⟩ := hkeys
      obtain ⟨hvw, hrest⟩ := equalEntries_cons hsorted h
      simp only [hashEntries, hashTypedValue_of_cmpEq ha.1 hb.1 hvw,
        hashEntries_of_equalEntries hsorted.of_cons ha.2 hb.2 hkeys hrest]
end

end Hash

/-! ## Equality is transitive -/

mutual
theorem cmpEq_trans : ∀ {a b c : Value}, a.cmpEq b = true → b.cmpEq c = true → a.cmpEq c = true
  | .int _, _, _, h, h' | .bool _, _, _, h, h' | .text _, _, _, h, h' | .uuid _, _, _, h, h'
  | .date _, _, _, h, h' | .timestamp _, _, _, h, h' | .duration _, _, _, h, h'
  | .decimal _, _, _, h, h' | .bytes _, _, _, h, h' | .null, _, _, h, h' => by
    rwa [eq_of_cmpEq_leaf rfl h]
  | .float _, _, _, h, h' => by
    obtain ⟨m, rfl, heq⟩ := cmpEq_float.mp h
    obtain ⟨k, rfl, heq'⟩ := cmpEq_float.mp h'
    simp only [cmpEq, Float64.numEq, Bool.and_eq_true, decide_eq_true_eq] at heq heq' ⊢
    exact ⟨⟨heq.1.1, heq'.1.2⟩, heq.2.trans heq'.2⟩
  | .enum .., _, _, h, h' => by
    obtain ⟨_, bs, rfl, hname, heq⟩ := cmpEq_enum.mp h
    obtain ⟨_, cs, rfl, hname', heq'⟩ := cmpEq_enum.mp h'
    exact cmpEq_enum.mpr
      ⟨_, cs, rfl, fun hz => (hname hz).trans (hname' hz), equalItems_trans heq heq'⟩
  | .record _, _, _, h, h' => by
    obtain ⟨b, rfl, hlen, heq⟩ := cmpEq_record.mp h
    obtain ⟨c, rfl, hlen', heq'⟩ := cmpEq_record.mp h'
    exact cmpEq_record.mpr ⟨c, rfl, hlen.trans hlen', equalEntries_trans heq heq'⟩
  | .tuple _, _, _, h, h' => by
    obtain ⟨b, rfl, heq⟩ := cmpEq_tuple.mp h
    obtain ⟨c, rfl, heq'⟩ := cmpEq_tuple.mp h'
    exact cmpEq_tuple.mpr ⟨c, rfl, equalItems_trans heq heq'⟩
  | .list _, _, _, h, h' => by
    obtain ⟨b, rfl, heq⟩ := cmpEq_list.mp h
    obtain ⟨c, rfl, heq'⟩ := cmpEq_list.mp h'
    exact cmpEq_list.mpr ⟨c, rfl, equalItems_trans heq heq'⟩
  | .map _, _, _, h, h' => by
    obtain ⟨b, rfl, hlen, heq⟩ := cmpEq_map.mp h
    obtain ⟨c, rfl, hlen', heq'⟩ := cmpEq_map.mp h'
    exact cmpEq_map.mpr ⟨c, rfl, hlen.trans hlen', equalEntries_trans heq heq'⟩
  | .option none, _, _, h, h' => by rwa [cmpEq_none.mp h] at h'
  | .option (some _), _, _, h, h' => by
    obtain ⟨v, rfl, heq⟩ := cmpEq_some.mp h
    obtain ⟨w, rfl, heq'⟩ := cmpEq_some.mp h'
    exact cmpEq_some.mpr ⟨w, rfl, cmpEq_trans heq heq'⟩
  | .named .., _, _, h, h' => by
    obtain ⟨v, rfl, heq⟩ := cmpEq_named.mp h
    obtain ⟨w, rfl, heq'⟩ := cmpEq_named.mp h'
    exact cmpEq_named.mpr ⟨w, rfl, cmpEq_trans heq heq'⟩

theorem equalItems_trans : ∀ {as bs cs : List Value}, equalItems as bs = true →
    equalItems bs cs = true → equalItems as cs = true
  | [], _, _, h, h' => by rwa [equalItems_nil.mp h] at h'
  | _ :: _, _, _, h, h' => by
    obtain ⟨b, bs, rfl, hab, heq⟩ := equalItems_cons.mp h
    obtain ⟨c, cs, rfl, hbc, heq'⟩ := equalItems_cons.mp h'
    exact equalItems_cons.mpr ⟨c, cs, rfl, cmpEq_trans hab hbc, equalItems_trans heq heq'⟩

theorem equalEntries_trans : ∀ {as bs cs : List (String × Value)}, equalEntries as bs = true →
    equalEntries bs cs = true → equalEntries as cs = true
  | [], _, _, _, _ => by simp [equalEntries]
  | (k, u) :: as, bs, cs, h, h' => by
    obtain ⟨v, hv, huv⟩ := equalEntries_iff.mp h (k, u) mem_cons_self
    obtain ⟨w, hw, hvw⟩ := equalEntries_iff.mp h' (k, v) (mem_of_lookup hv)
    have hrest : equalEntries as bs = true :=
      equalEntries_iff.mpr fun p hp => equalEntries_iff.mp h p (mem_cons_of_mem _ hp)
    rw [equalEntries, Bool.and_eq_true]
    dsimp only at hw
    rw [hw]
    exact ⟨cmpEq_trans huv hvw, equalEntries_trans hrest h'⟩
end

end Value

/-! ## Rows -/

/-- Rows of values with ordered keys. -/
def RowOrdered (row : Fields) : Prop :=
  ∀ (name : String) (v : Value), row.lookup name = some v → v.Ordered

/-- Both rows have the column, with equal values. -/
def columnEqual (left right : Fields) (column : Column) : Bool :=
  match left.lookup column.name, right.lookup column.name with
  | some l, some r => l.cmpEq r
  | _, _ => false

def typedRowsEqual (columns : List Column) (left right : Fields) : Bool :=
  columns.all (columnEqual left right)

/-- A hasher from its start to its 64 bits. Nothing is assumed about it. -/
class DefaultHasher (σ : Type) extends RowHasher σ where
  new : σ
  finish : σ → UInt64

section
variable {σ : Type} [DefaultHasher σ]

/-- Feed a column of a row to a hasher. -/
def hashColumn (row : Fields) (state : σ) (column : Column) : σ :=
  let state := RowHasher.write (.str column.name) state
  match row.lookup column.name with
  | some value => value.hashTypedValue state
  | none => state

variable (σ) in
def typedRowHash (columns : List Column) (row : Fields) : UInt64 :=
  DefaultHasher.finish (columns.foldl (hashColumn row) (DefaultHasher.new : σ))

variable {left right : Fields}

theorem columnEqual_iff {column : Column} : columnEqual left right column = true ↔
      ∃ l r, left.lookup column.name = some l ∧ right.lookup column.name = some r ∧
        l.cmpEq r = true := by
  unfold columnEqual
  cases left.lookup column.name <;> cases right.lookup column.name <;> simp

variable {columns : List Column}

theorem typedRowsEqual_iff : typedRowsEqual columns left right = true ↔ ∀ column ∈ columns,
      ∃ l r, left.lookup column.name = some l ∧ right.lookup column.name = some r ∧
        l.cmpEq r = true := by
  simp only [typedRowsEqual, all_eq_true, columnEqual_iff]

theorem typedRowsEqual_trans (a b c : Fields)
    (h : typedRowsEqual columns a b = true) (h' : typedRowsEqual columns b c = true) :
    typedRowsEqual columns a c = true := by
  refine typedRowsEqual_iff.mpr fun column hcolumn => ?_
  obtain ⟨u, v, hu, hv, huv⟩ := typedRowsEqual_iff.mp h column hcolumn
  obtain ⟨v', w, hv', hw, hvw⟩ := typedRowsEqual_iff.mp h' column hcolumn
  cases hv.symm.trans hv'
  exact ⟨u, w, hu, hw, Value.cmpEq_trans huv hvw⟩

theorem foldl_hashColumn {a b : Fields} (ha : RowOrdered a) (hb : RowOrdered b)
    (h : typedRowsEqual columns a b = true) (state : σ) :
    columns.foldl (hashColumn a) state = columns.foldl (hashColumn b) state := by
  induction columns generalizing state with
  | nil => rfl
  | cons column columns ih =>
    obtain ⟨⟨u, v, hu, hv, huv⟩, hrest⟩ := forall_mem_cons.mp (typedRowsEqual_iff.mp h)
    have hcolumn : hashColumn a state column = hashColumn b state column := by
      simp only [hashColumn, hu, hv]
      exact Value.hashTypedValue_of_cmpEq (ha _ u hu) (hb _ v hv) huv _
    rw [foldl_cons, foldl_cons, hcolumn, ih (typedRowsEqual_iff.mpr hrest)]

/-- **Equal rows hash alike.** -/
theorem typedRowHash_of_equal (a b : Fields) (ha : RowOrdered a)
    (hb : RowOrdered b) (h : typedRowsEqual columns a b = true) :
    typedRowHash σ columns a = typedRowHash σ columns b := by
  rw [typedRowHash, typedRowHash, foldl_hashColumn ha hb h]

/-! ## The operations -/

inductive SetOperator where
  | union
  | intersect
  | except
  deriving DecidableEq, Repr

/-- Whether an operation other than union includes a left row. -/
def SetOperator.includes : SetOperator → (inRight : Bool) → Bool
  | .union, _ => true
  | .intersect, inRight => inRight
  | .except, inRight => !inRight

variable (σ) in
/-- Keep a left row that the operation includes, unless an equal one is kept. -/
def keepMember (columns : List Column) (operator : SetOperator) (right : List Fields)
    (rightBuckets : Buckets UInt64) (kept : Kept Fields UInt64) (row : Fields) :
    Kept Fields UInt64 :=
  let inRight := rightBuckets.holds (typedRowsEqual columns) right row (typedRowHash σ columns row)
  if operator.includes inRight then
    kept.keep (typedRowsEqual columns) (typedRowHash σ columns) row
  else kept

variable (σ) in
/-- Combine two lists of rows over the same columns. -/
def applySetOperation (left right : List Fields) (operator : SetOperator) (columns : List Column) :
    List Fields :=
  if operator = .union then
    ((left ++ right).foldl (Kept.keep (typedRowsEqual columns) (typedRowHash σ columns))
      ⟨[], ∅⟩).rows
  else
    (left.foldl (keepMember σ columns operator right
      (Buckets.ofRows (typedRowHash σ columns) right)) ⟨[], ∅⟩).rows

/-- What each operation is for: the distinct rows of both sides, the distinct left rows that
occur on the right, and those that do not; always in the order of their first occurrence. -/
def SetOperator.select (equal : Fields → Fields → Bool) (left right : List Fields) :
    SetOperator → List Fields
  | .union => firsts equal (left ++ right)
  | .intersect => firsts equal (left.filter fun row => right.any (equal row))
  | .except => firsts equal (left.filter fun row => !right.any (equal row))

theorem foldl_keepMember {operator : SetOperator} {left right : List Fields}
    (hleft : ∀ row ∈ left, RowOrdered row) (hright : ∀ row ∈ right, RowOrdered row)
    (kept : Kept Fields UInt64) : left.foldl (keepMember σ columns operator right
        (Buckets.ofRows (typedRowHash σ columns) right)) kept =
      (left.filter fun row => operator.includes (right.any (typedRowsEqual columns row))).foldl
        (Kept.keep (typedRowsEqual columns) (typedRowHash σ columns)) kept := by
  rw [foldl_filter]
  refine foldl_ext _ _ _ fun kept row hrow => ?_
  have hmember := (files_ofRows (typedRowHash σ columns) right).holds_eq
    fun r hr => typedRowHash_of_equal row r (hleft row hrow) (hright r hr)
  simp only [keepMember, hmember]

/-- **Set operations are exact**: whatever the hasher does with what it is fed. -/
theorem applySetOperation_eq {left right : List Fields} (hleft : ∀ row ∈ left, RowOrdered row)
    (hright : ∀ row ∈ right, RowOrdered row) (operator : SetOperator) (columns : List Column) :
    applySetOperation σ left right operator columns =
      operator.select (typedRowsEqual columns) left right := by
  have hscan : ∀ rows : List Fields, (∀ row ∈ rows, RowOrdered row) →
      (rows.foldl (Kept.keep (typedRowsEqual columns) (typedRowHash σ columns)) ⟨[], ∅⟩).rows =
        firsts (typedRowsEqual columns) rows :=
    fun rows hrows => foldl_keep typedRowsEqual_trans typedRowHash_of_equal hrows
  cases operator with
  | union =>
    refine hscan (left ++ right) fun row hrow => ?_
    rcases mem_append.mp hrow with hrow | hrow
    · exact hleft row hrow
    · exact hright row hrow
  | intersect =>
    rw [applySetOperation, if_neg (by decide), foldl_keepMember hleft hright]
    exact hscan _ fun row hrow => hleft row (mem_of_mem_filter hrow)
  | except =>
    rw [applySetOperation, if_neg (by decide), foldl_keepMember hleft hright]
    exact hscan _ fun row hrow => hleft row (mem_of_mem_filter hrow)

end

/-- A hasher that files everything under one hash. -/
@[reducible] def constantHasher : DefaultHasher Unit where
  write _ state := state
  display _ := ""
  new := ()
  finish _ := 0

theorem applySetOperation_collisions :
    @applySetOperation Unit constantHasher
        [[("x", .int 1)], [("x", .int 2)], [("x", .int 1)]] [[("x", .int 3)], [("x", .int 1)]]
        .intersect [⟨"x", .int, none, 0⟩] = [[("x", .int 1)]] ∧
      @applySetOperation Unit constantHasher
        [[("x", .int 1)], [("x", .int 2)], [("x", .int 1)]] [[("x", .int 3)], [("x", .int 1)]]
        .except [⟨"x", .int, none, 0⟩] = [[("x", .int 2)]] := by
  have hordered : ∀ n : Int64, RowOrdered [("x", .int n)] := by
    intro n name v hv
    obtain ⟨rfl, rfl⟩ := by simpa using mem_of_lookup hv
    trivial
  have hleft : ∀ row ∈ ([[("x", .int 1)], [("x", .int 2)], [("x", .int 1)]] : List Fields),
      RowOrdered row := by simp [hordered]
  have hright : ∀ row ∈ ([[("x", .int 3)], [("x", .int 1)]] : List Fields), RowOrdered row := by
    simp [hordered]
  refine ⟨(@applySetOperation_eq Unit constantHasher _ _ hleft hright _ _).trans ?_,
    (@applySetOperation_eq Unit constantHasher _ _ hleft hright _ _).trans ?_⟩
  · rfl
  · rfl

end UnionId
