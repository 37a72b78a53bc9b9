import UnionId.Lib.Grouping
import UnionId.Lib.Ranking
import UnionId.Query.Execute
import UnionId.Query.GroupKeys
import UnionId.Query.RowOrder

/-!
# Windows

A window stage numbers the rows of each partition by its sort keys. Partitions are
collected by the texts of their keys; the positions of a partition are sorted, a running
counter over the sorted positions knows the ranks, and every row gets its numbers where
it stands. Rows are written while later rows of the partition are still compared with
them, which is harmless since an output is never a field that exists.
-/
namespace UnionId

open Lib Std Catalog List

/-! ## Syntax -/

inductive WindowFunction where
  | rowNumber
  | rank
  | denseRank
  deriving DecidableEq, Repr

/-- An output field. Its name is an identifier, so it has no dot. -/
structure WindowAssignment where
  name : String
  function : WindowFunction
  plain : '.' ∉ name.toList

structure Window where
  partitionBy : List String
  orderBy : List SortKey
  assignments : List WindowAssignment

/-! ## Binding -/

def MAX_WINDOW_OUTPUTS : ℕ := 256

section Bind
variable (catalog : Catalog)

def bindWindowKey (schema : List Column) (key : SortKey) : Result SortKey := do
  let ty ← catalog.fieldType schema key.column
  if !(← orderable catalog ty) then
    fail .E_TYPE ("window sort field '" ++ key.column ++ "' has no ordering" : String)
  pure { key with ty := some ty }

/-- Append the output columns, which must be new. -/
def bindWindowAssignments : List Column → List WindowAssignment → Result (List Column)
  | schema, [] => pure schema
  | schema, assignment :: assignments =>
    if schema.any fun column => column.name = assignment.name then
      fail .E_FIELD ("window field '" ++ assignment.name ++ "' already exists" : String)
    else bindWindowAssignments (schema ++ [⟨assignment.name, .int, none, 0⟩]) assignments

def bindWindow (schema : List Column) (window : Window) : Result (Window × List Column) :=
  if window.assignments.length > MAX_WINDOW_OUTPUTS then
    fail .E_LIMIT ("window has " ++ toString window.assignments.length ++
      " output fields; limit is " ++ toString MAX_WINDOW_OUTPUTS : String)
  else do
    window.partitionBy.forM fun path => do let _ ← catalog.fieldType schema path
    let orderBy ← window.orderBy.mapM (bindWindowKey catalog schema)
    let schema ← bindWindowAssignments schema window.assignments
    pure ({ window with orderBy }, schema)

end Bind

/-! ## Execution -/

/-- The positions of each partition, with the bytes they take up. -/
structure Partitions where
  partitions : ExtTreeMap (List String) (List ℕ)
  stateBytes : ℕ

structure RankCounters where
  rank : ℕ
  denseRank : ℕ

def windowLimit {α : Type} (state : String) : Result α :=
  fail .E_LIMIT ("window " ++ state ++ " exceeds " ++ toString GENERAL_WORKING_MAX_BYTES ++
    " encoded bytes; add filter or take before window" : String)

/-- The number of an output, from the position in the sorted partition and its counters. -/
def WindowFunction.value (position : ℕ) (counters : RankCounters) : WindowFunction → ℕ
  | .rowNumber => position + 1
  | .rank => counters.rank
  | .denseRank => counters.denseRank

def writeRank (value : WindowFunction → ℕ) (row : Fields) (assignment : WindowAssignment) :
    Result Fields :=
  if value assignment.function < 2 ^ 63 then
    pure (assocInsert assignment.name (.int (Int64.ofNat (value assignment.function))) row)
  else fail .E_LIMIT ("window rank exceeds the int range" : String)

section
variable [KeyTexts]

def partitionKey (partitionBy : List String) (row : Fields) : Result (List String) :=
  partitionBy.mapM fun path =>
    match rowField row path with
    | some value => pure value.keyText
    | none =>
      fail .E_FIELD ("missing window partition field '" ++ path ++ "' during execution" : String)

def addToPartition (partitionBy : List String) (state : Partitions) (row : Fields × ℕ) :
    Result Partitions := do
  let key ← partitionKey partitionBy row.1
  let stateBytes := state.stateBytes + (key.map String.utf8ByteSize).sum + 8
  if stateBytes > GENERAL_WORKING_MAX_BYTES then windowLimit "state"
  else pure ⟨state.partitions.insert key (state.partitions.getD key [] ++ [row.2]), stateBytes⟩

def collectPartitions (partitionBy : List String) (rows : List Fields) : Result Partitions :=
  rows.zipIdx.foldlM (addToPartition partitionBy) ⟨∅, 0⟩

end

section
variable (catalog : Catalog) (window : Window)

/-- The counters at a row, from those at the row before it. -/
def advanceCounters (position : ℕ) (counters : RankCounters) (previous : Option ℕ) (index : ℕ)
    (rows : List Fields) : Result RankCounters :=
  match previous with
  | none => pure counters
  | some previous => do
    let ordering ← compareRowsByTypedKeys catalog window.orderBy (rows.getD previous [])
      (rows.getD index [])
    pure (if ordering ≠ .eq then ⟨position + 1, counters.denseRank + 1⟩ else counters)

/-- Write the numbers of the sorted positions of one partition. -/
def rankFrom (position : ℕ) (counters : RankCounters) (previous : Option ℕ) :
    List ℕ → List Fields → Result (List Fields)
  | [], rows => pure rows
  | index :: indexes, rows => do
    let counters ← advanceCounters catalog window position counters previous index rows
    let row ← window.assignments.foldlM (writeRank (·.value position counters)) (rows.getD index [])
    rankFrom (position + 1) counters (some index) indexes (rows.set index row)

def rankPartition (rows : List Fields) (indexes : List ℕ) : Result (List Fields) := do
  let indexes ← sortByTyped catalog window.orderBy (rows.getD · []) indexes
  rankFrom catalog window 0 ⟨1, 1⟩ none indexes rows

/-- The stage on all rows, with the bytes it needs. -/
def applyWindow [KeyTexts] [External] (rows : List Fields) : Result (List Fields × ℕ) := do
  let state ← collectPartitions window.partitionBy rows
  let rows ← (valuesOf state.partitions).foldlM (rankPartition catalog window) rows
  let materializedBytes ← checkMaterializedRows rows
  let peakBytes := materializedBytes + state.stateBytes
  if peakBytes > GENERAL_WORKING_MAX_BYTES then windowLimit "working state"
  else pure (rows, peakBytes)

end

/-! ## What is counted -/

section Spec
variable (catalog : Catalog) (window : Window) (rows : List Fields)

/-- How two rows compare by the sort keys. -/
def rowsCompare (ordering : Ordering) (j i : ℕ) : Bool :=
  match compareRowsByTypedKeys catalog window.orderBy (rows.getD j []) (rows.getD i []) with
  | .ok o => o = ordering
  | .error _ => false

/-- The positions of the rows with the partition keys of a row. -/
def partitionOf (i : ℕ) : List ℕ :=
  (List.range rows.length).filter fun j =>
    sameGroup window.partitionBy (rows.getD i []) (rows.getD j [])

/-- The number that a window function gives to a row: one more than the rows of its
partition before it in the stable order, than those with a smaller sort tuple, or than
the distinct smaller sort tuples. -/
noncomputable def rankOf (i : ℕ) : WindowFunction → ℕ
  | .rowNumber => 1 + (partitionOf window rows i).countP fun j =>
      rowsCompare catalog window rows .lt j i || rowsCompare catalog window rows .eq j i && j < i
  | .rank => 1 + (partitionOf window rows i).countP fun j => rowsCompare catalog window rows .lt j i
  | .denseRank => 1 + {tuple | ∃ j ∈ partitionOf window rows i,
      rowsCompare catalog window rows .lt j i ∧
        sortTuple window.orderBy (rows.getD j []) = tuple}.ncard

end Spec

/-! ## Output fields -/

/-- A row with its numbers. -/
def extendRow (assignments : List WindowAssignment) (value : WindowFunction → ℕ) (row : Fields) :
    Fields :=
  assignments.foldl (fun row a => assocInsert a.name (.int (Int64.ofNat (value a.function))) row)
    row

section Extend
variable {assignments : List WindowAssignment} {value : WindowFunction → ℕ} {row : Fields}

theorem returns_writeRanks : Returns IsLimit (assignments.foldlM (writeRank value) row) fun out =>
      out = extendRow assignments value row ∧ ∀ a ∈ assignments, value a.function < 2 ^ 63 := by
  induction assignments generalizing row with
  | nil => exact .ok ⟨rfl, by simp⟩
  | cons a assignments ih =>
    rw [foldlM_cons, writeRank]
    by_cases hlt : value a.function < 2 ^ 63
    · rw [if_pos hlt]
      exact ih.mono fun out ⟨hout, hrest⟩ => ⟨hout, forall_mem_cons.mpr ⟨hlt, hrest⟩⟩
    · rw [if_neg hlt]
      exact .error rfl

theorem lookup_extendRow_of_ne {name : String} (h : ∀ a ∈ assignments, a.name ≠ name) :
    (extendRow assignments value row).lookup name = row.lookup name := by
  induction assignments generalizing row with
  | nil => rfl
  | cons a assignments ih =>
    obtain ⟨ha, hrest⟩ := forall_mem_cons.mp h
    exact (ih hrest).trans (by rw [lookup_assocInsert, if_neg (Ne.symm ha)])

theorem lookup_extendRow (hnames : (assignments.map fun a => a.name).Nodup) {a : WindowAssignment}
    (ha : a ∈ assignments) : (extendRow assignments value row).lookup a.name =
      some (.int (Int64.ofNat (value a.function))) := by
  induction assignments generalizing row with
  | nil => simp at ha
  | cons b assignments ih =>
    rw [map_cons, nodup_cons] at hnames
    obtain rfl | ha := mem_cons.mp ha
    · have hne : ∀ b ∈ assignments, b.name ≠ a.name := fun b hb heq =>
        hnames.1 (heq ▸ mem_map_of_mem hb)
      exact (lookup_extendRow_of_ne hne).trans (by rw [lookup_assocInsert, if_pos rfl])
    · exact ih hnames.2 ha

theorem keysSorted_extendRow (h : KeysSorted row) :
    KeysSorted (extendRow assignments value row) := by
  induction assignments generalizing row with
  | nil => exact h
  | cons a assignments ih => exact ih (keysSorted_assocInsert _ _ h)

theorem mem_extendRow {p : String × Value} (h : p ∈ extendRow assignments value row) :
    p ∈ row ∨ ∃ a ∈ assignments, a.name = p.1 := by
  induction assignments generalizing row with
  | nil => exact .inl h
  | cons a assignments ih =>
    obtain h | ⟨b, hb, hname⟩ := ih h
    · obtain rfl | h := mem_assocInsert h
      · exact .inr ⟨a, mem_cons_self, rfl⟩
      · exact .inl h
    · exact .inr ⟨b, mem_cons_of_mem _ hb, hname⟩

variable {catalog : Catalog} {schema : List Column}

/-- Paths into the old columns are not disturbed. -/
theorem rowField_extendRow (hfresh : ∀ a ∈ assignments, ∀ c ∈ schema, c.name ≠ a.name)
    (hrow : catalog.WellTypedFields schema row) {path : String} {ty : ScalarType}
    (hty : catalog.fieldType schema path = .ok ty) :
    rowField (extendRow assignments value row) path = rowField row path := by
  obtain ⟨c, hc, rfl, -⟩ | ⟨-, head, tail, hdot, c, hc, rfl, -⟩ := fieldType_cases hty
  · obtain ⟨v, hv, -⟩ := hrow.2.2 c hc
    simp [rowField, lookup_extendRow_of_ne fun a ha => (hfresh a ha c hc).symm, hv]
  · have hpath : ∀ a ∈ assignments, a.name ≠ path := by
      rintro a ha rfl
      simp [splitOnceDot, a.plain] at hdot
    rw [rowField, lookup_extendRow_of_ne hpath, hdot, rowField, hdot]
    simp only [lookup_extendRow_of_ne fun a ha => (hfresh a ha c hc).symm]

theorem sortTuple_extendRow (hfresh : ∀ a ∈ assignments, ∀ c ∈ schema, c.name ≠ a.name)
    (hrow : catalog.WellTypedFields schema row) {keys : List SortKey}
    (hkeys : BoundKeys catalog schema keys) :
    sortTuple keys (extendRow assignments value row) = sortTuple keys row := by
  refine map_congr_left fun key hkey => ?_
  obtain ⟨ty, -, hty⟩ := hkeys key hkey
  exact rowField_extendRow hfresh hrow hty

end Extend

/-! ## One partition -/

/-- The rows at some positions have been written. -/
structure Written (final : ℕ → Fields) (base : List Fields) (done : List ℕ) (rows : List Fields) :
    Prop where
  length_eq : rows.length = base.length
  getD_of_mem : ∀ i ∈ done, i < base.length → rows.getD i [] = final i
  getD_of_notMem : ∀ i ∉ done, rows.getD i [] = base.getD i []

variable {done : List ℕ}

theorem Written.set {final : ℕ → Fields} {base rows : List Fields}
    (h : Written final base done rows) (i : ℕ) :
    Written final base (done ++ [i]) (rows.set i (final i)) := by
  refine ⟨by rw [length_set, h.length_eq], fun j hj hlt => ?_, fun j hj => ?_⟩
  · by_cases hij : i = j
    · subst hij
      have hlen : i < rows.length := h.length_eq.symm ▸ hlt
      simp [hlen]
    · obtain hj := (mem_append.mp hj).resolve_right fun hj => hij (mem_singleton.mp hj).symm
      rw [getD_eq_getElem?_getD, getElem?_set_ne hij, ← getD_eq_getElem?_getD]
      exact h.getD_of_mem j hj hlt
  · obtain ⟨hj, hij⟩ := not_or.mp (mt mem_append.mpr hj)
    have hne : i ≠ j := fun heq => hij (by simp [heq])
    rw [getD_eq_getElem?_getD, getElem?_set_ne hne, ← getD_eq_getElem?_getD]
    exact h.getD_of_notMem j hj

theorem Written.congr {final : ℕ → Fields} {base rows : List Fields} {done' : List ℕ}
    (h : Written final base done rows) (hmem : ∀ i, i ∈ done' ↔ i ∈ done) :
    Written final base done' rows :=
  ⟨h.length_eq, fun i hi => h.getD_of_mem i ((hmem i).mp hi),
    fun i hi => h.getD_of_notMem i (mt (hmem i).mpr hi)⟩

/-- The numbers of a position among the positions of a list. -/
noncomputable def rankIn {κ : Type} (order : ℕ → ℕ → Ordering) (kind : ℕ → κ) (l : List ℕ) (i : ℕ) :
    WindowFunction → ℕ
  | .rowNumber => 1 + l.countP fun j => Ahead order (· < ·) j i
  | .rank => 1 + smaller order l i
  | .denseRank => 1 + smallerKinds order kind l i

theorem rankIn_perm {κ : Type} {order : ℕ → ℕ → Ordering} {kind : ℕ → κ}
    {l r : List ℕ} (h : r.Perm l)
    (i : ℕ) : rankIn order kind r i = rankIn order kind l i := by
  funext f
  cases f with
  | rowNumber => exact congrArg (1 + ·) (h.countP_eq _)
  | rank => exact congrArg (1 + ·) (smaller_perm h)
  | denseRank => exact congrArg (1 + ·) (smallerKinds_perm h)

section Partition
variable {catalog : Catalog} {window : Window} {base : List Fields} {final : ℕ → Fields} {κ : Type}
  {order : ℕ → ℕ → Ordering} {kind : ℕ → κ} [TransCmp order]

/-- The counters after the positions `p`: those of the last one. -/
def CountersAt (order : ℕ → ℕ → Ordering) (kind : ℕ → κ) (p : List ℕ) (previous : Option ℕ)
    (counters : RankCounters) : Prop :=
  (p = [] ∧ previous = none ∧ counters = ⟨1, 1⟩) ∨ ∃ q b, p = q ++ [b] ∧ previous = some b ∧
    counters = ⟨1 + smaller order q b, 1 + smallerKinds order kind q b⟩

variable {p : List ℕ} {previous : Option ℕ} {counters : RankCounters} {a : ℕ} {s : List ℕ}

theorem advanceCounters_eq
    (hcounters : CountersAt order kind p previous counters) {rows : List Fields}
    (hsorted : (p ++ [a]).Pairwise (Ahead order (· < ·)))
    (hcompare : ∀ b ∈ p, compareRowsByTypedKeys catalog window.orderBy (rows.getD b [])
      (rows.getD a []) = .ok (order b a))
    (hkind : ∀ b ∈ p, ∀ c ∈ p, order c b = .eq ↔ kind c = kind b) :
    advanceCounters catalog window p.length counters previous a rows =
      .ok ⟨1 + smaller order p a, 1 + smallerKinds order kind p a⟩ := by
  obtain ⟨rfl, rfl, rfl⟩ | ⟨q, b, rfl, rfl, rfl⟩ := hcounters
  · simp [advanceCounters]
  · obtain ⟨hp, -, hcross⟩ := pairwise_append.mp hsorted
    rw [advanceCounters, hcompare b (by simp), ok_bind]
    have hle := (hcross b (by simp) a (by simp)).isLE
    cases hord : order b a with
    | lt =>
      rw [smaller_of_lt hp hord, smallerKinds_of_lt hp (hkind b (by simp)) hord,
        Nat.add_comm 1 (q ++ [b]).length, ← Nat.add_assoc]
      rfl
    | eq =>
      rw [smaller_of_eq hp hord, smallerKinds_of_eq hp hord]
      rfl
    | gt => simp [hord] at hle

/-- The counters are the numbers. -/
theorem value_eq_rankIn
    (hsorted : (p ++ a :: s).Pairwise (Ahead order (· < ·))) (f : WindowFunction) :
    f.value p.length ⟨1 + smaller order p a, 1 + smallerKinds order kind p a⟩ =
      rankIn order kind (p ++ a :: s) a f := by
  cases f with
  | rowNumber =>
    rw [rankIn, countP_ahead (fun a b hab => Nat.lt_asymm hab) hsorted, Nat.add_comm 1 p.length]
    rfl
  | rank =>
    rw [rankIn, smaller_append hsorted]
    rfl
  | denseRank =>
    rw [rankIn, smallerKinds_append hsorted]
    rfl

/-- What the rows of a partition have to do with the order of their positions. -/
structure PartitionOrder (catalog : Catalog) (window : Window) (base : List Fields)
    (order : ℕ → ℕ → Ordering) (kind : ℕ → κ) (l : List ℕ) : Prop where
  /-- The numbers of the first row do not disturb the comparison. -/
  compare : ∀ b ∈ l, ∀ a ∈ l, ∀ value, compareRowsByTypedKeys catalog window.orderBy
    (extendRow window.assignments value (base.getD b [])) (base.getD a []) = .ok (order b a)
  kind : ∀ b ∈ l, ∀ c ∈ l, order c b = .eq ↔ kind c = kind b
  lt : ∀ i ∈ l, i < base.length

/-- **The scan of a sorted partition** writes the numbers of every row. -/
theorem returns_rankFrom {l done : List ℕ} (hl : PartitionOrder catalog window base order kind l)
    (hfinal : ∀ i ∈ l, final i =
      extendRow window.assignments (rankIn order kind l i) (base.getD i []))
    (hsorted : l.Pairwise (Ahead order (· < ·))) (hdone : ∀ i ∈ l, i ∉ done) (hps : p ++ s = l)
    (hcounters : CountersAt order kind p previous counters) {rows : List Fields}
    (hrows : Written final base (done ++ p) rows) :
    Returns IsLimit (rankFrom catalog window p.length counters previous s rows) fun out =>
      Written final base (done ++ l) out ∧
        ∀ i ∈ s, ∀ a ∈ window.assignments, rankIn order kind l i a.function < 2 ^ 63 := by
  induction s generalizing p previous counters rows with
  | nil =>
    obtain rfl : p = l := by simpa using hps
    exact .ok ⟨hrows, by simp⟩
  | cons a s ih =>
    subst hps
    have hmem : ∀ b ∈ p, b ∈ p ++ a :: s := fun b hb => mem_append_left _ hb
    have ha : a ∈ p ++ a :: s := by simp
    have hnew : a ∉ p := fun hp => by
      have hself := (pairwise_append.mp hsorted).2.2 a hp a mem_cons_self
      exact Ahead.asymm (fun _ _ hlt => Nat.lt_asymm hlt) hself hself
    have hcurrent : rows.getD a [] = base.getD a [] :=
      hrows.getD_of_notMem a fun hin => (mem_append.mp hin).elim (hdone a ha) hnew
    have hcompare : ∀ b ∈ p, compareRowsByTypedKeys catalog window.orderBy (rows.getD b [])
        (rows.getD a []) = .ok (order b a) := by
      intro b hb
      rw [hcurrent, hrows.getD_of_mem b (by simp [hb]) (hl.lt b (hmem b hb)), hfinal b (hmem b hb)]
      exact hl.compare b (hmem b hb) a ha _
    have hadvance := advanceCounters_eq hcounters
      (hsorted.sublist ((List.Sublist.refl p).append (singleton_sublist.mpr mem_cons_self)))
      hcompare fun b hb c hc => hl.kind b (hmem b hb) c (hmem c hc)
    rw [rankFrom, hadvance, ok_bind, hcurrent]
    have hvalue : (fun f : WindowFunction => f.value p.length
        ⟨1 + smaller order p a, 1 + smallerKinds order kind p a⟩) =
        rankIn order kind (p ++ a :: s) a := funext (value_eq_rankIn hsorted)
    rw [hvalue]
    refine returns_writeRanks.bind fun row ⟨hrow, hfits⟩ => ?_
    rw [hrow, ← hfinal a ha]
    have hnext := ih (p := p ++ [a]) (by simp) (.inr ⟨p, a, rfl, rfl, rfl⟩)
      (by simpa using hrows.set a)
    rw [length_append, length_singleton] at hnext
    exact hnext.mono fun out ⟨hout, hrest⟩ => ⟨hout, forall_mem_cons.mpr ⟨hfits, hrest⟩⟩

end Partition

/-! ## All partitions -/

section Bind
variable {catalog : Catalog} {schema columns : List Column}

theorem bindWindowAssignments_eq_ok {assignments : List WindowAssignment}
    (h : bindWindowAssignments schema assignments = .ok columns) :
    columns = schema ++ assignments.map (fun a => ⟨a.name, .int, none, 0⟩) ∧
      (∀ a ∈ assignments, ∀ c ∈ schema, c.name ≠ a.name) ∧
      (assignments.map fun a => a.name).Nodup := by
  induction assignments generalizing schema with
  | nil =>
    cases h
    simp
  | cons a assignments ih =>
    rw [bindWindowAssignments] at h
    split at h
    · cases h
    · next hnew =>
      have hnew : ∀ c ∈ schema, c.name ≠ a.name := by simpa using hnew
      obtain ⟨hcolumns, hfresh, hnodup⟩ := ih h
      refine ⟨by simp [hcolumns], forall_mem_cons.mpr ⟨hnew, fun b hb c hc => ?_⟩, ?_⟩
      · exact hfresh b hb c (by simp [hc])
      · rw [map_cons, nodup_cons]
        refine ⟨fun hmem => ?_, hnodup⟩
        obtain ⟨b, hb, hname⟩ := mem_map.mp hmem
        exact hfresh b hb ⟨a.name, .int, none, 0⟩ (by simp) hname.symm

theorem bindWindowKey_eq_ok {key bound : SortKey}
    (h : bindWindowKey catalog schema key = .ok bound) :
    ∃ ty, bound = { key with ty := some ty } ∧ catalog.fieldType schema key.column = .ok ty := by
  obtain ⟨ty, hty, b, -, h⟩ := of_bind₂ h
  cases b with
  | false => cases h
  | true =>
    cases h
    exact ⟨ty, rfl, hty⟩

/-- What binding a window has checked. -/
structure BoundWindow (catalog : Catalog) (schema : List Column) (window : Window)
    (columns : List Column) : Prop where
  paths : ∀ path ∈ window.partitionBy, ∃ ty, catalog.fieldType schema path = .ok ty
  keys : BoundKeys catalog schema window.orderBy
  columns : columns = schema ++ window.assignments.map fun a => ⟨a.name, .int, none, 0⟩
  fresh : ∀ a ∈ window.assignments, ∀ c ∈ schema, c.name ≠ a.name
  nodup : (window.assignments.map fun a => a.name).Nodup

theorem bindWindow_eq_ok {window bound : Window}
    (h : bindWindow catalog schema window = .ok (bound, columns)) :
    BoundWindow catalog schema bound columns := by
  rw [bindWindow] at h
  split at h
  · cases h
  obtain ⟨_, hpaths, keys, hkeys, h⟩ := of_bind₂ h
  obtain ⟨columns', hcolumns, h⟩ := of_bind h
  cases h
  obtain ⟨hcolumns, hfresh, hnodup⟩ := bindWindowAssignments_eq_ok hcolumns
  refine ⟨fun path hpath => ?_, fun key hkey => ?_, hcolumns, hfresh, hnodup⟩
  · obtain ⟨ty, hty, -⟩ := of_bind (forM_eq_ok_iff.mp hpaths path hpath)
    exact ⟨ty, hty⟩
  · obtain ⟨key', -, hbound⟩ := exists_of_mem_right (mapM_eq_ok_iff.mp hkeys) hkey
    obtain ⟨ty, rfl, hty⟩ := bindWindowKey_eq_ok hbound
    exact ⟨ty, rfl, hty⟩

end Bind

section Stage
variable {catalog : Catalog} {schema columns : List Column} {window : Window} {rows : List Fields}
  {i : ℕ} {order : Fields → Fields → Ordering}

theorem getD_mem (hi : i < rows.length) : rows.getD i [] ∈ rows := by
  rw [getD_eq_getElem?_getD, getElem?_eq_getElem hi]
  exact getElem_mem hi

variable {j : ℕ} {done : List ℕ} {current : List Fields} {partitionBy : List String}
  {state : Partitions}

theorem mem_partitionOf : j ∈ partitionOf window rows i ↔
    j < rows.length ∧ sameGroup window.partitionBy (rows.getD i []) (rows.getD j []) = true := by
  simp [partitionOf]

theorem partitionOf_ascending (i : ℕ) : (partitionOf window rows i).Pairwise (· < ·) :=
  pairwise_lt_range.filter _

variable (hc : catalog.Sound) (hschema : ∀ c ∈ schema, c.ty.Bound)
  (hrows : ∀ row ∈ rows, catalog.WellTypedFields schema row)
  (hwindow : BoundWindow catalog schema window columns)
  (horder : IsRowOrder catalog schema window.orderBy order)

abbrev positionOrder (rows : List Fields) (order : Fields → Fields → Ordering)
    (j i : ℕ) : Ordering :=
  order (rows.getD j []) (rows.getD i [])

include hrows horder in
theorem rowsCompare_eq (hi : i < rows.length) (hj : j < rows.length) (ordering : Ordering) :
    rowsCompare catalog window rows ordering j i = true ↔
      positionOrder rows order j i = ordering := by
  rw [rowsCompare, horder.compare _ _ (hrows _ (getD_mem hj)) (hrows _ (getD_mem hi)),
    decide_eq_true_eq]

include hrows horder in
/-- The numbers within the partition. -/
theorem rankIn_partitionOf (hi : i < rows.length) :
    rankIn (positionOrder rows order) (fun j => sortTuple window.orderBy (rows.getD j []))
      (partitionOf window rows i) i = rankOf catalog window rows i := by
  have hcompare : ∀ j ∈ partitionOf window rows i, ∀ ordering,
      rowsCompare catalog window rows ordering j i = true ↔
        positionOrder rows order j i = ordering := fun j hj =>
    rowsCompare_eq hrows horder hi (mem_partitionOf.mp hj).1
  funext f
  cases f with
  | rowNumber =>
    refine congrArg (1 + ·) (countP_congr fun j hj => ?_)
    rw [decide_eq_true_eq, Bool.or_eq_true, Bool.and_eq_true, hcompare j hj, hcompare j hj,
      decide_eq_true_eq]
    rfl
  | rank =>
    refine congrArg (1 + ·) (countP_congr fun j hj => ?_)
    simp [hcompare j hj]
  | denseRank =>
    rw [rankIn, rankOf, smallerKinds]
    congr 2
    ext tuple
    exact exists_congr fun j => and_congr_right fun hj => by rw [hcompare j hj]

/-- A row with the numbers of its position. -/
noncomputable def rankedRow (catalog : Catalog) (window : Window) (rows : List Fields) (i : ℕ) :
    Fields :=
  extendRow window.assignments (rankOf catalog window rows i) (rows.getD i [])

include hrows hwindow horder in
theorem partitionOrder {l : List ℕ} (hl : ∀ i ∈ l, i < rows.length) :
    PartitionOrder catalog window rows (positionOrder rows order)
      (fun j => sortTuple window.orderBy (rows.getD j [])) l := by
  have htyped : ∀ i ∈ l, catalog.WellTypedFields schema (rows.getD i []) := fun i hi =>
    hrows _ (getD_mem (hl i hi))
  refine ⟨fun b hb a ha value => ?_, fun b hb c hc => ?_, hl⟩
  · rw [compareRowsByTypedKeys_congr (sortTuple_extendRow hwindow.fresh (htyped b hb) hwindow.keys)
      rfl]
    exact horder.compare _ _ (htyped b hb) (htyped a ha)
  · exact horder.eq_iff _ _ (htyped c hc) (htyped b hb)

include hrows hwindow horder in
/-- One partition, while others have been written. -/
theorem returns_rankPartition {g : List ℕ} (hg : ∀ i ∈ g, g = partitionOf window rows i)
    (hascending : g.Pairwise (· < ·))
    (hdone : ∀ i ∈ g, i ∉ done)
    (hcurrent : Written (rankedRow catalog window rows) rows done current) :
    Returns IsLimit (rankPartition catalog window current g) fun out =>
      Written (rankedRow catalog window rows) rows (done ++ g) out ∧
        ∀ i ∈ g, ∀ a ∈ window.assignments, rankOf catalog window rows i a.function < 2 ^ 63 := by
  have htrans := horder.trans
  have hpositions : TransCmp (positionOrder rows order) :=
    { eq_swap := fun {_ _} => htrans.eq_swap, isLE_trans := fun {_ _ _} => htrans.isLE_trans }
  have hlt : ∀ i ∈ g, i < rows.length := fun i hi => by
    have hself := hi
    rw [hg i hi] at hself
    exact (mem_partitionOf.mp hself).1
  have hsame : ∀ i ∈ g, current.getD i [] = rows.getD i [] := fun i hi =>
    hcurrent.getD_of_notMem i (hdone i hi)
  obtain ⟨r, hr, hperm, hsorted⟩ := sortByTyped_stable horder (fun i => current.getD i [])
    (fun i hi => by
      rw [hsame i hi]
      exact hrows _ (getD_mem (hlt i hi))) hascending
  have hmem : ∀ i, i ∈ r ↔ i ∈ g := fun i => hperm.mem_iff
  have hranks : ∀ i ∈ g, rankIn (positionOrder rows order)
      (fun j => sortTuple window.orderBy (rows.getD j [])) r i = rankOf catalog window rows i := by
    intro i hi
    have hpartition := rankIn_partitionOf hrows horder (hlt i hi)
    rwa [← hg i hi, ← rankIn_perm hperm] at hpartition
  rw [rankPartition, hr, ok_bind]
  have hsorted : r.Pairwise (Ahead (positionOrder rows order) (· < ·)) := by
    refine hsorted.imp_of_mem fun {a b} ha hb hab => ?_
    rwa [Ahead, hsame a ((hmem a).mp ha), hsame b ((hmem b).mp hb)] at hab
  have hfinal : ∀ i ∈ r, rankedRow catalog window rows i = extendRow window.assignments
      (rankIn (positionOrder rows order) (fun j => sortTuple window.orderBy (rows.getD j [])) r i)
      (rows.getD i []) := by
    intro i hi
    rw [hranks i ((hmem i).mp hi)]
    rfl
  have hstart : Written (rankedRow catalog window rows) rows (done ++ []) current := by
    simpa using hcurrent
  refine (returns_rankFrom (partitionOrder hrows hwindow horder fun i hi => hlt i ((hmem i).mp hi))
    hfinal hsorted (fun i hi => hdone i ((hmem i).mp hi)) (nil_append r) (.inl ⟨rfl, rfl, rfl⟩)
    hstart).mono fun out ⟨hout, hfits⟩ => ⟨hout.congr fun i => by simp [hmem i], ?_⟩
  intro i hi a ha
  rw [← hranks i hi]
  exact hfits i ((hmem i).mpr hi) a ha

include hrows hwindow horder in
/-- All partitions, one after the other. -/
theorem returns_rankPartitions {groups : List (List ℕ)}
    (hgroups : ∀ g ∈ groups, (∀ i ∈ g, g = partitionOf window rows i) ∧ g.Pairwise (· < ·))
    (hdisjoint : groups.Pairwise List.Disjoint) (hdone : ∀ g ∈ groups, ∀ i ∈ g, i ∉ done)
    (hcurrent : Written (rankedRow catalog window rows) rows done current) :
    Returns IsLimit (groups.foldlM (rankPartition catalog window) current) fun out =>
      Written (rankedRow catalog window rows) rows (done ++ groups.flatten) out ∧
        ∀ i ∈ groups.flatten, ∀ a ∈ window.assignments,
          rankOf catalog window rows i a.function < 2 ^ 63 := by
  induction groups generalizing done current with
  | nil => exact .ok ⟨by simpa using hcurrent, by simp⟩
  | cons g groups ih =>
    obtain ⟨⟨hg, hascending⟩, hgroups⟩ := forall_mem_cons.mp hgroups
    obtain ⟨hnew, hrest⟩ := forall_mem_cons.mp hdone
    obtain ⟨hapart, hdisjoint⟩ := pairwise_cons.mp hdisjoint
    rw [foldlM_cons]
    refine (returns_rankPartition hrows hwindow horder hg hascending hnew hcurrent).bind
      fun next ⟨hnext, hfits⟩ => ?_
    have hlater : ∀ g' ∈ groups, ∀ i ∈ g', i ∉ done ++ g := fun g' hg' i hi hin =>
      (mem_append.mp hin).elim (hrest g' hg' i hi) fun hin => hapart g' hg' hin hi
    refine (ih hgroups hdisjoint hlater hnext).mono fun out ⟨hout, hfits'⟩ => ⟨?_, ?_⟩
    · simpa using hout
    · intro i hi
      rw [flatten_cons, mem_append] at hi
      exact hi.elim (hfits i) (hfits' i)

theorem zipIdx_eq_map_range :
    rows.zipIdx = (List.range rows.length).map fun j => (rows.getD j [], j) := by
  refine ext_getElem? fun i => ?_
  rw [getElem?_zipIdx, getElem?_map]
  by_cases hi : i < rows.length
  · simp [hi]
  · simp [hi]

variable [KeyTexts]

def positionKey (partitionBy : List String) (p : Fields × ℕ) : Option (List String) :=
  groupKey partitionBy p.1

/-- The partitions of some rows: the positions of the rows with each key. -/
abbrev PartitionsOf (partitionBy : List String) (l : List (Fields × ℕ))
    (state : Partitions) : Prop :=
  Grouped (positionKey partitionBy) ∅ (fun _ members positions =>
    positions = members.map Prod.snd) l
    state.partitions

theorem partitionKey_eq_ok
    (hpaths : ∀ path ∈ partitionBy, ∃ ty, catalog.fieldType schema path = .ok ty) {row : Fields}
    (hrow : catalog.TypedFields schema row) :
    ∃ key, partitionKey partitionBy row = .ok key ∧ groupKey partitionBy row = some key := by
  induction partitionBy with
  | nil => exact ⟨[], rfl, rfl⟩
  | cons path paths ih =>
    obtain ⟨⟨ty, hty⟩, hpaths⟩ := forall_mem_cons.mp hpaths
    obtain ⟨v, hv, -⟩ := rowField_typed hrow hty
    obtain ⟨key, hpartition, hgroup⟩ := ih hpaths
    refine ⟨v.keyText :: key, ?_, by rw [groupKey_cons hv, hgroup]; rfl⟩
    rw [partitionKey] at hpartition ⊢
    rw [mapM_cons, hv]
    dsimp only
    rw [pure_eq_ok, ok_bind, hpartition]
    rfl

theorem returns_addToPartitions
    (hpaths : ∀ path ∈ partitionBy, ∃ ty, catalog.fieldType schema path = .ok ty)
    {earlier l : List (Fields × ℕ)} (hl : ∀ p ∈ l, catalog.TypedFields schema p.1)
    (hstate : PartitionsOf partitionBy earlier state) :
    Returns IsLimit (l.foldlM (addToPartition partitionBy) state)
      (PartitionsOf partitionBy (earlier ++ l)) := by
  induction l generalizing earlier state with
  | nil => exact .ok (by simpa using hstate)
  | cons p l ih =>
    obtain ⟨hp, hl⟩ := forall_mem_cons.mp hl
    obtain ⟨key, hkey, hgroup⟩ := partitionKey_eq_ok hpaths hp
    rw [foldlM_cons, addToPartition, hkey, ok_bind]
    dsimp only
    split
    · exact .error rfl
    · have hpositions : state.partitions.getD key [] =
          (fiber (positionKey partitionBy) earlier key).map Prod.snd := by
        rw [ExtTreeMap.getD_eq_getD_getElem?]
        cases hget : state.partitions[key]? with
        | some positions => exact hstate.rep key positions hget
        | none =>
          rw [hstate.fiber_eq_nil hget]
          rfl
      have hnext : PartitionsOf partitionBy (earlier ++ [p])
          ⟨state.partitions.insert key (state.partitions.getD key [] ++ [p.2]),
            state.stateBytes + (key.map String.utf8ByteSize).sum + 8⟩ :=
        hstate.insert hgroup (by rw [hpositions, map_append]; rfl)
      simpa using ih hl hnext

include hc hschema hrows hwindow in
/-- The members of a key are the partition of each of them. -/
theorem map_fiber_eq_partitionOf {key : List String}
    (hi : i ∈ (fiber (positionKey window.partitionBy) rows.zipIdx key).map Prod.snd) :
    (fiber (positionKey window.partitionBy) rows.zipIdx key).map Prod.snd =
      partitionOf window rows i := by
  have htyped : ∀ j, j < rows.length → catalog.TypedFields schema (rows.getD j []) := fun j hj =>
    (hrows _ (getD_mem hj)).typed
  rw [fiber, zipIdx_eq_map_range, filter_map, map_map] at hi ⊢
  have hid : Prod.snd ∘ (fun j => (rows.getD j [], j)) = id := rfl
  rw [hid, map_id] at hi ⊢
  obtain ⟨hi, hkey⟩ := mem_filter.mp hi
  have hkey : groupKey window.partitionBy (rows.getD i []) = some key :=
    of_decide_eq_true hkey
  refine filter_congr fun j hj => ?_
  rw [Bool.eq_iff_iff, sameGroup_iff hc hschema hwindow.paths
    (htyped i (mem_range.mp hi)) (htyped j (mem_range.mp hj)), hkey]
  exact decide_eq_true_iff

include hc hschema hrows hwindow in
/-- The groups that the positions are collected in. -/
theorem groups_of_partitionsOf
    (hstate : PartitionsOf window.partitionBy rows.zipIdx state) : (∀ g ∈ valuesOf state.partitions,
      (∀ i ∈ g, g = partitionOf window rows i) ∧ g.Pairwise (· < ·)) ∧
      (valuesOf state.partitions).Pairwise List.Disjoint ∧
      ∀ i < rows.length, i ∈ (valuesOf state.partitions).flatten := by
  have hvalue : ∀ p ∈ state.partitions.toList,
      p.2 = (fiber (positionKey window.partitionBy) rows.zipIdx p.1).map Prod.snd := fun p hp =>
    hstate.rep p.1 p.2 (ExtTreeMap.mem_toList_iff_getElem?_eq_some.mp hp)
  have hmembers : ∀ p ∈ state.partitions.toList, ∀ i, i ∈ p.2 ↔
      i < rows.length ∧ positionKey window.partitionBy (rows.getD i [], i) = some p.1 := by
    intro p hp i
    rw [hvalue p hp, fiber, zipIdx_eq_map_range]
    simp
  refine ⟨fun g hg => ?_, ?_, fun i hi => ?_⟩
  · obtain ⟨p, hp, rfl⟩ := mem_map.mp hg
    have hpartition : ∀ i ∈ p.2, p.2 = partitionOf window rows i := by
      intro i hi
      rw [hvalue p hp] at hi ⊢
      exact map_fiber_eq_partitionOf hc hschema hrows hwindow hi
    refine ⟨hpartition, ?_⟩
    cases hmem : p.2 with
    | nil => exact .nil
    | cons i rest =>
      rw [← hmem, hpartition i (by simp [hmem])]
      exact partitionOf_ascending i
  · rw [valuesOf, pairwise_map]
    refine ExtTreeMap.distinct_keys_toList.imp_of_mem fun {p q} hp hq hne i hip hiq => ?_
    have heq := ((hmembers p hp i).mp hip).2.symm.trans ((hmembers q hq i).mp hiq).2
    exact hne (by rw [Option.some.inj heq, ReflOrd.compare_self])
  · obtain ⟨key, hkey⟩ : ∃ key, positionKey window.partitionBy (rows.getD i [], i) = some key :=
      groupKey_eq_some hwindow.paths (hrows _ (getD_mem hi)).typed
    have hin : key ∈ state.partitions := by
      rw [hstate.mem_iff]
      refine .inr ⟨(rows.getD i [], i), ?_, hkey⟩
      rw [zipIdx_eq_map_range]
      exact mem_map_of_mem (mem_range.mpr hi)
    rw [ExtTreeMap.mem_iff_isSome_getElem?] at hin
    obtain ⟨g, hg⟩ := Option.isSome_iff_exists.mp hin
    have hp := ExtTreeMap.mem_toList_iff_getElem?_eq_some.mpr hg
    exact mem_flatten.mpr ⟨g, mem_map.mpr ⟨(key, g), hp, rfl⟩,
      (hmembers (key, g) hp i).mpr ⟨hi, hkey⟩⟩

/-- A row after the stage: its old fields, and the number of each output. -/
structure Ranked (catalog : Catalog) (window : Window) (columns : List Column) (rows : List Fields)
    (i : ℕ) (row out : Fields) : Prop where
  typed : catalog.WellTypedFields columns out
  kept : ∀ name, (∀ a ∈ window.assignments, a.name ≠ name) → out.lookup name = row.lookup name
  ranks : ∀ a ∈ window.assignments, ∃ n : Int64, out.lookup a.name = some (.int n) ∧
    n.toInt = rankOf catalog window rows i a.function

omit [KeyTexts] in
include hrows hwindow in
theorem ranked_rankedRow (hi : i < rows.length)
    (hfits : ∀ a ∈ window.assignments, rankOf catalog window rows i a.function < 2 ^ 63) :
    Ranked catalog window columns rows i (rows.getD i []) (rankedRow catalog window rows i) := by
  obtain ⟨hsorted, hknown, htyped⟩ := hrows _ (getD_mem hi)
  have hassigned : ∀ a ∈ window.assignments, (rankedRow catalog window rows i).lookup a.name =
      some (.int (Int64.ofNat (rankOf catalog window rows i a.function))) := fun a ha =>
    lookup_extendRow hwindow.nodup ha
  refine ⟨⟨keysSorted_extendRow hsorted, fun p hp => ?_, fun c hmem => ?_⟩,
    fun name hname => lookup_extendRow_of_ne hname, fun a ha => ⟨_, hassigned a ha, ?_⟩⟩
  · rw [hwindow.columns]
    obtain hp | ⟨a, ha, hname⟩ := mem_extendRow hp
    · obtain ⟨c, hmem, hname⟩ := hknown p hp
      exact ⟨c, mem_append_left _ hmem, hname⟩
    · exact ⟨_, mem_append_right _ (mem_map_of_mem ha), hname⟩
  · rw [hwindow.columns] at hmem
    obtain hmem | hmem := mem_append.mp hmem
    · obtain ⟨v, hv, hvt⟩ := htyped c hmem
      refine ⟨v, ?_, hvt⟩
      rw [← hv]
      exact lookup_extendRow_of_ne fun a ha => (hwindow.fresh a ha c hmem).symm
    · obtain ⟨a, ha, rfl⟩ := mem_map.mp hmem
      exact ⟨_, hassigned a ha, _, rfl⟩
  · exact Int64.toInt_ofNat_of_lt (hfits a ha)

variable [External]

/-- **Windows number the rows of each partition.** The rows stay in their places with
their fields, and every output is the count that its function stands for. Only a limit
stops the stage. -/
theorem applyWindow_ranks {window bound : Window} (hc : catalog.Sound)
    (hschema : ∀ c ∈ schema, c.ty.Bound)
    (hrows : ∀ row ∈ rows, catalog.WellTypedFields schema row)
    (hbind : bindWindow catalog schema window = .ok (bound, columns)) :
    Returns IsLimit (applyWindow catalog bound rows) fun out =>
      out.1.length = rows.length ∧ ∀ i < rows.length,
        Ranked catalog bound columns rows i (rows.getD i []) (out.1.getD i []) := by
  have hwindow := bindWindow_eq_ok hbind
  obtain ⟨order, horder⟩ := exists_rowOrder hc hschema hwindow.keys
  have hpairs : ∀ p ∈ rows.zipIdx, catalog.TypedFields schema p.1 := fun p hp =>
    (hrows p.1 (fst_mem_of_mem_zipIdx hp)).typed
  have hempty : PartitionsOf bound.partitionBy [] ⟨∅, 0⟩ := Grouped.init (by simp)
  refine (returns_addToPartitions hwindow.paths hpairs hempty).bind fun state hstate => ?_
  rw [nil_append] at hstate
  obtain ⟨hgroups, hdisjoint, hall⟩ := groups_of_partitionsOf hc hschema hrows hwindow hstate
  have hstart : Written (rankedRow catalog bound rows) rows [] rows := ⟨rfl, by simp, by simp⟩
  refine (returns_rankPartitions hrows hwindow horder hgroups hdisjoint (by simp) hstart).bind
    fun out ⟨hout, hfits⟩ => ?_
  rw [nil_append] at hout
  have hranked : out.length = rows.length ∧ ∀ i < rows.length,
      Ranked catalog bound columns rows i (rows.getD i []) (out.getD i []) := by
    refine ⟨hout.length_eq, fun i hi => ?_⟩
    rw [hout.getD_of_mem i (hall i hi) hi]
    exact ranked_rankedRow hrows hwindow hi (hfits i (hall i hi))
  rw [checkMaterializedRows]
  dsimp only
  split
  · exact .error rfl
  · rw [pure_eq_ok, ok_bind]
    split
    · exact .error rfl
    · exact .ok hranked

end Stage

/-! ## A run -/

section Run

attribute [local instance] codeTexts

/-- Sizes do not matter for small rows. -/
@[reducible] def noSizes : External := ⟨fun _ => 0, fun _ => 0, fun _ => ""⟩

attribute [local instance] noSizes

/-- Scores of each team, the best first. -/
def scoreWindow : Window :=
  ⟨["team"], [⟨"score", true, none⟩], [⟨"n", .rowNumber, by decide⟩, ⟨"r", .rank, by decide⟩,
    ⟨"d", .denseRank, by decide⟩]⟩

def scoreSchema : List Column := [⟨"score", .int, none, 1⟩, ⟨"team", .text, none, 2⟩]

def scoreRow (score : Int64) (team : String) : Fields :=
  [("score", .int score), ("team", .text team)]

def scoreRows : List Fields :=
  [scoreRow 3 "a", scoreRow 7 "a", scoreRow 5 "b", scoreRow 7 "a", scoreRow 1 "a"]

theorem applyWindow_ranks_scores : ∃ bound columns out,
    bindWindow .empty scoreSchema scoreWindow = .ok (bound, columns) ∧
      applyWindow .empty bound scoreRows = .ok out ∧
      out.1.map (fun row => [row.lookup "n", row.lookup "r", row.lookup "d"]) =
        [[some (.int 3), some (.int 3), some (.int 2)],
          [some (.int 1), some (.int 1), some (.int 1)],
          [some (.int 1), some (.int 1), some (.int 1)],
          [some (.int 2), some (.int 1), some (.int 1)],
          [some (.int 4), some (.int 4), some (.int 3)]] ∧
      ∀ i < scoreRows.length,
        Ranked .empty bound columns scoreRows i (scoreRows.getD i []) (out.1.getD i []) := by
  have hschema : ∀ c ∈ scoreSchema, c.ty.Bound := by
    intro c hc
    simp only [scoreSchema, mem_cons, not_mem_nil, or_false] at hc
    obtain rfl | rfl := hc
    · exact Catalog.bound_leaf .int trivial rfl
    · exact Catalog.bound_leaf .text trivial rfl
  have hrow : ∀ n team, Catalog.empty.WellTypedFields scoreSchema (scoreRow n team) := by
    intro n team
    refine ⟨pairwise_pair.mpr (show "score" < "team" by decide), by simp [scoreSchema, scoreRow],
      ?_⟩
    simp only [scoreSchema, forall_mem_cons, not_mem_nil, false_imp_iff, implies_true,
      and_true]
    exact ⟨⟨_, rfl, _, rfl⟩, ⟨_, rfl, _, rfl⟩⟩
  have hrows : ∀ row ∈ scoreRows, Catalog.empty.WellTypedFields scoreSchema row := by
    simp [scoreRows, hrow]
  obtain ⟨out, hout, -, hranked⟩ | ⟨e, he, -⟩ := applyWindow_ranks Catalog.sound_empty hschema hrows
    (show bindWindow .empty scoreSchema scoreWindow = _ from rfl)
  · refine ⟨_, _, out, rfl, hout, ?_, hranked⟩
    cases hout
    rfl
  · cases he

end Run

end UnionId
