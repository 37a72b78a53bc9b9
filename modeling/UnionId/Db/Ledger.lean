import UnionId.Lib.Assoc
import UnionId.Lib.Fallible
import UnionId.Lib.Lineage
import UnionId.Model.Types

/-!
# The migration ledger

Applied migrations form one line: each names the one before it. The check of a ledger takes
its entries in any order, looks for a missing parent, a fork and a second root, and then
follows the children from the root. Entries that it has not met by then form a cycle of
their own.

## Main results

* `lineage_of_validateHistory`, `validateHistory_of_lineage` — the check accepts exactly the
  lineages.
* `ledger_linear` — the ledger stays one lineage.
-/
namespace UnionId.Ledger

open Lib List

structure MigrationEntry where
  id : String
  parent : Option String
  checksum : String
  schemaRevision : UInt64
  schemaHash : String
  appliedAtUnixMs : UInt64
  deriving DecidableEq, Repr

/-! ## The check -/

/-- The characters that trimming removes. -/
def isWhitespace (c : Char) : Bool :=
  (0x9 ≤ c.val && c.val ≤ 0xD) || (0x2000 ≤ c.val && c.val ≤ 0x200A) ||
    c.val ∈ [0x20, 0x85, 0xA0, 0x1680, 0x2028, 0x2029, 0x202F, 0x205F, 0x3000]

/-- Nothing is left after trimming. -/
def trimmedEmpty (s : String) : Bool := s.toList.all isWhitespace

def migrationFails {α : Type} (message : String) : Result α := fail .E_MIGRATION message

def validateEntry (entry : MigrationEntry) : Result Unit :=
  if trimmedEmpty entry.id then migrationFails "migration ID must not be empty"
  else if trimmedEmpty entry.checksum then
    migrationFails ("migration '" ++ entry.id ++ "' has an empty checksum")
  else if !("sha256:".toList.isPrefixOf entry.schemaHash.toList) then
    migrationFails ("migration '" ++ entry.id ++ "' has an invalid schema hash")
  else pure ()

/-- Valid entries with distinct identities; the identities found. -/
def collectIds : List String → List MigrationEntry → Result (List String)
  | ids, [] => pure ids
  | ids, entry :: entries => do
    validateEntry entry
    if entry.id ∈ ids then migrationFails ("duplicate migration ID '" ++ entry.id ++ "'")
    else collectIds (entry.id :: ids) entries

/-- The entries without a parent, and the child of every other parent. -/
structure Links where
  roots : List String
  childByParent : List (String × String)

def link (ids : List String) (links : Links) (entry : MigrationEntry) : Result Links :=
  match entry.parent with
  | none => pure { links with roots := links.roots ++ [entry.id] }
  | some parent =>
    if parent ∉ ids then
      migrationFails ("migration '" ++ entry.id ++ "' has missing parent '" ++ parent ++ "'")
    else
      match links.childByParent.lookup parent with
      | some previous => migrationFails ("migration history forks at '" ++ parent ++ "' into '" ++
          previous ++ "' and '" ++ entry.id ++ "'")
      | none => pure { links with childByParent := (parent, entry.id) :: links.childByParent }

/-- Follow the children. The source loops without a bound; one step per entry and a last
one are enough, since no entry is met twice. -/
def follow (childByParent : List (String × String)) : ℕ → List String → String →
    Result (List String × String)
  | 0, _, _ => migrationFails "migration history is longer than its entries"
  | n + 1, seen, current =>
    if current ∈ seen then
      migrationFails ("migration history contains a cycle at '" ++ current ++ "'")
    else
      match childByParent.lookup current with
      | none => pure (current :: seen, current)
      | some child => follow childByParent n (current :: seen) child

/-- The identity of the last migration of a linear history. -/
def validateHistory (entries : List MigrationEntry) : Result (Option String) := do
  let ids ← collectIds [] entries
  if entries.isEmpty then pure none
  else do
    let links ← entries.foldlM (link ids) ⟨[], []⟩
    match links.roots with
    | [root] => do
      let (seen, head) ← follow links.childByParent (entries.length + 1) [] root
      if seen.length ≠ entries.length then
        migrationFails "migration history contains a disconnected cycle"
      else pure (some head)
    | [] => migrationFails "migration history has a cycle and no root"
    | roots => migrationFails ("migration history has " ++ toString roots.length ++ " roots")

inductive ApplyDecision where
  | apply
  | alreadyApplied
  deriving DecidableEq, Repr

/-- Quoted, as identities without characters that need an escape are. -/
def displayParent (parent : Option String) : String :=
  match parent with
  | some parent => "Some(\"" ++ parent ++ "\")"
  | none => "None"

def validateNext (history : List MigrationEntry) (next : MigrationEntry) :
    Result ApplyDecision := do
  let head ← validateHistory history
  validateEntry next
  match history.find? fun entry => entry.id = next.id with
  | some applied =>
    if applied = next then pure .alreadyApplied
    else migrationFails ("applied migration '" ++ next.id ++ "' was changed")
  | none =>
    if next.parent ≠ head then
      migrationFails ("migration '" ++ next.id ++ "' expects parent " ++
        displayParent next.parent ++
        ", current head is " ++ displayParent head)
    else
      match head.bind fun id => history.find? fun entry => entry.id = id with
      | some previous =>
        if next.schemaRevision ≤ previous.schemaRevision then
          migrationFails "migration schema revision must increase"
        else pure .apply
      | none => pure .apply

/-- Write down one more migration. -/
def appendMigration (history : List MigrationEntry) (entry : MigrationEntry) :
    Result (List MigrationEntry) := do
  let _ ← validateNext history entry
  pure (history ++ [entry])

/-! ## Lineages -/

/-- The entries in the order in which they were applied. -/
structure Lineage (entries chain : List MigrationEntry) : Prop where
  perm : chain.Perm entries
  linked : Linked MigrationEntry.id MigrationEntry.parent none chain

variable {ids : List String} {entry : MigrationEntry}

theorem collectIds_eq_ok {out : List String} {entries : List MigrationEntry} :
    collectIds ids entries = .ok out ↔ (∀ e ∈ entries, validateEntry e = .ok ()) ∧
      (entries.map (·.id)).Nodup ∧ (∀ e ∈ entries, e.id ∉ ids) ∧
      out = (entries.map (·.id)).reverse ++ ids := by
  induction entries generalizing ids with
  | nil => simp [collectIds, eq_comm]
  | cons e entries ih =>
    rw [collectIds]
    constructor
    · intro h
      obtain ⟨_, hvalid, h⟩ := of_bind h
      obtain ⟨hnew, h⟩ := of_refused h
      obtain ⟨hall, hnodup, hids, rfl⟩ := ih.mp h
      simp only [mem_cons, not_or] at hids
      refine ⟨forall_mem_cons.mpr ⟨hvalid, hall⟩, ?_, ?_, by simp⟩
      · refine nodup_cons.mpr ⟨fun hmem => ?_, hnodup⟩
        obtain ⟨e', he', heq⟩ := mem_map.mp hmem
        exact (hids e' he').1 heq
      · exact forall_mem_cons.mpr ⟨hnew, fun e' he' => (hids e' he').2⟩
    · rintro ⟨hall, hnodup, hids, rfl⟩
      obtain ⟨hvalid, hall⟩ := forall_mem_cons.mp hall
      obtain ⟨hnew, hids⟩ := forall_mem_cons.mp hids
      obtain ⟨hfirst, hnodup⟩ := nodup_cons.mp hnodup
      refine bind_eq_ok.mpr ⟨(), hvalid, ?_⟩
      rw [if_neg hnew]
      refine ih.mpr ⟨hall, hnodup, fun e' he' hmem => ?_, by simp⟩
      obtain heq | hmem := mem_cons.mp hmem
      · exact hfirst (mem_map.mpr ⟨e', he', heq⟩)
      · exact hids e' he' hmem

def childPairs (entries : List MigrationEntry) : List (String × String) :=
  entries.filterMap fun e => e.parent.map (·, e.id)

def rootIds (entries : List MigrationEntry) : List String :=
  (entries.filter (·.parent.isNone)).map (·.id)

theorem map_fst_childPairs (entries : List MigrationEntry) :
    (childPairs entries).map Prod.fst = entries.filterMap (·.parent) := by
  rw [childPairs, map_filterMap]
  refine filterMap_congr fun e _ => ?_
  cases e.parent <;> rfl

variable {pairs : List (String × String)} {p : String} {links out : Links} {e : MigrationEntry}

theorem lookup_eq_none_iff : pairs.lookup p = none ↔ p ∉ pairs.map Prod.fst := by
  rw [List.lookup_eq_none_iff]
  constructor
  · intro h hmem
    obtain ⟨q, hq, rfl⟩ := mem_map.mp hmem
    simpa using h q hq
  · intro h q hq
    simpa using fun heq : p = q.1 => h (mem_map.mpr ⟨q, hq, heq.symm⟩)

theorem link_eq_ok : link ids links e = .ok out ↔
      (∀ p ∈ e.parent, p ∈ ids ∧ p ∉ links.childByParent.map Prod.fst) ∧
      out = ⟨links.roots ++ rootIds [e], childPairs [e] ++ links.childByParent⟩ := by
  rw [link]
  cases hparent : e.parent with
  | none => simp [rootIds, childPairs, hparent, eq_comm]
  | some p =>
    have hfork : links.childByParent.lookup p = none ↔ p ∉ links.childByParent.map Prod.fst :=
      lookup_eq_none_iff
    by_cases hp : p ∈ ids
    · cases hlookup : links.childByParent.lookup p with
      | none => simp [rootIds, childPairs, hparent, hp, hlookup, hfork.mp hlookup,
          -mem_map, eq_comm]
      | some previous =>
        have hmem := mt hfork.mpr (by simp [hlookup])
        simp [hp, hlookup, migrationFails, hmem, -mem_map]
    · simp [hp, migrationFails]

/-- Linking finds missing parents and forks. -/
theorem foldlM_link_eq_ok {entries : List MigrationEntry} :
    entries.foldlM (link ids) links = .ok out ↔
      (∀ p ∈ entries.filterMap (·.parent), p ∈ ids ∧ p ∉ links.childByParent.map Prod.fst) ∧
      (entries.filterMap (·.parent)).Nodup ∧
      out = ⟨links.roots ++ rootIds entries, (childPairs entries).reverse ++
        links.childByParent⟩ := by
  induction entries generalizing links with
  | nil => simp [rootIds, childPairs, eq_comm]
  | cons e entries ih =>
    have hroots : rootIds (e :: entries) = rootIds [e] ++ rootIds entries := by
      simp [rootIds, filter_cons]
      split <;> rfl
    have hpairs : childPairs (e :: entries) = childPairs [e] ++ childPairs entries := by
      simp [childPairs, filterMap_cons]
      split <;> rfl
    rw [foldlM_cons, bind_eq_ok, hroots, hpairs]
    simp only [link_eq_ok, ih]
    cases hparent : e.parent with
    | none => simp [childPairs, hparent]
    | some p =>
      have hone : childPairs [e] = [(p, e.id)] := by simp [childPairs, hparent]
      simp only [Option.mem_def, Option.some.injEq, forall_eq', filterMap_cons_some hparent,
        mem_cons, forall_eq_or_imp, nodup_cons, hone]
      constructor
      · rintro ⟨_, ⟨hp, rfl⟩, hall, hnodup, rfl⟩
        refine ⟨⟨hp, fun q hq => ?_⟩, ⟨fun hmem => ?_, hnodup⟩, by simp⟩
        · exact ⟨(hall q hq).1, fun hmem => (hall q hq).2 (mem_cons_of_mem _ hmem)⟩
        · exact (hall p hmem).2 mem_cons_self
      · rintro ⟨⟨hp, hall⟩, ⟨hfirst, hnodup⟩, rfl⟩
        refine ⟨_, ⟨hp, rfl⟩, fun q hq => ⟨(hall q hq).1, fun hmem => ?_⟩, hnodup, by simp⟩
        obtain rfl | hmem := mem_cons.mp hmem
        · exact hfirst hq
        · exact (hall q hq).2 hmem

theorem notMem_reverse {done rest : List MigrationEntry}
    (h : ((done ++ e :: rest).map (·.id)).Nodup) : e.id ∉ (done.map (·.id)).reverse := by
  rw [map_append, nodup_append] at h
  exact fun hmem => h.2.2 _ (mem_reverse.mp hmem) e.id (by simp) rfl

section Follow

variable {entries : List MigrationEntry} (hparents : (entries.filterMap (·.parent)).Nodup)
include hparents

theorem lookup_childPairs {p c : String} : (childPairs entries).reverse.lookup p = some c ↔
    ∃ e ∈ entries, e.parent = some p ∧ e.id = c := by
  have hkeys : ((childPairs entries).reverse.map Prod.fst).Nodup := by
    rw [map_reverse, map_fst_childPairs]
    exact nodup_reverse.mpr hparents
  rw [lookup_eq_some_iff_mem hkeys]
  simp [childPairs]

variable {n : ℕ} {e : MigrationEntry}

/-- **The walk finds a lineage.** -/
theorem follow_sound (done : List MigrationEntry) {seen : List String} {head : String}
    (h : follow (childPairs entries).reverse n (done.map (·.id)).reverse e.id = .ok (seen, head))
    (hmem : ∀ d ∈ done ++ [e], d ∈ entries) (hids : (done.map (·.id)).Nodup)
    (hlinked : Linked MigrationEntry.id MigrationEntry.parent none (done ++ [e])) :
    ∃ chain, (∀ d ∈ chain, d ∈ entries) ∧ (chain.map (·.id)).Nodup ∧
      Linked MigrationEntry.id MigrationEntry.parent none chain ∧
      seen = (chain.map (·.id)).reverse ∧ Linked.tip MigrationEntry.id none chain = some head := by
  induction n generalizing done e with
  | zero => cases h
  | succ n ih =>
    rw [follow] at h
    obtain ⟨hnew, h⟩ := of_refused h
    rw [mem_reverse] at hnew
    have hids : ((done ++ [e]).map (·.id)).Nodup := by
      rw [map_append, nodup_append]
      exact ⟨hids, nodup_singleton _,
        by simpa using fun a ha heq => hnew (by simpa using ⟨a, ha, heq⟩)⟩
    split at h
    · cases h
      exact ⟨done ++ [e], hmem, hids, hlinked, by simp, by simp [Linked.tip_eq]⟩
    · next child hchild =>
      obtain ⟨e', he', hparent, rfl⟩ := (lookup_childPairs hparents).mp hchild
      have hnext : follow (childPairs entries).reverse n ((done ++ [e]).map (·.id)).reverse e'.id =
          .ok (seen, head) := by simpa using h
      refine ih _ hnext ?_ hids ?_
      · simpa [or_imp, forall_and, he'] using hmem
      · exact Linked.append.mpr ⟨hlinked, by simp [Linked, Linked.tip_eq, hparent]⟩

/-- **The walk follows every lineage.** -/
theorem follow_complete (done : List MigrationEntry) {rest : List MigrationEntry}
    (hmem : ∀ d, d ∈ done ++ e :: rest ↔ d ∈ entries)
    (hids : ((done ++ e :: rest).map (·.id)).Nodup)
    (hlinked : Linked MigrationEntry.id MigrationEntry.parent none (done ++ e :: rest))
    (hn : rest.length < n) :
    ∃ head, follow (childPairs entries).reverse n (done.map (·.id)).reverse e.id =
        .ok (((done ++ e :: rest).map (·.id)).reverse, head) ∧
      Linked.tip MigrationEntry.id none (done ++ e :: rest) = some head := by
  induction rest generalizing done e n with
  | nil =>
    obtain ⟨n, rfl⟩ := Nat.exists_eq_succ_of_ne_zero (Nat.ne_zero_of_lt hn)
    have htip : Linked.tip MigrationEntry.id none (done ++ [e]) =
        some e.id := by simp [Linked.tip_eq]
    have hlast : (childPairs entries).reverse.lookup e.id = none := by
      refine Option.eq_none_iff_forall_ne_some.mpr fun c hc => ?_
      obtain ⟨d, hd, hparent, _⟩ := (lookup_childPairs hparents).mp hc
      exact hlinked.tip_notMem_parents hids htip
        (mem_filterMap.mpr ⟨d, (hmem d).mpr hd, hparent⟩)
    exact ⟨e.id, by simp [follow, notMem_reverse hids, hlast], htip⟩
  | cons e' rest ih =>
    obtain ⟨n, rfl⟩ := Nat.exists_eq_succ_of_ne_zero (Nat.ne_zero_of_lt hn)
    have hchild : (childPairs entries).reverse.lookup e.id = some e'.id := by
      refine (lookup_childPairs hparents).mpr ⟨e', (hmem e').mp (by simp), ?_, rfl⟩
      exact (Linked.append.mp hlinked).2.2.1
    have hassoc : done ++ e :: e' :: rest = (done ++ [e]) ++ e' :: rest := by simp
    rw [hassoc] at hmem hlinked
    obtain ⟨head, hfollow, htip⟩ := ih _ hmem (hassoc ▸ hids) hlinked (Nat.succ_lt_succ_iff.mp hn)
    rw [hassoc]
    refine ⟨head, ?_, htip⟩
    rw [follow, if_neg (notMem_reverse hids), hchild]
    simpa using hfollow

end Follow

/-! ## What the check accepts -/

variable {entries chain : List MigrationEntry}

theorem rootIds_perm (h : chain.Perm entries) : (rootIds chain).Perm (rootIds entries) :=
  (h.filter _).map _

theorem rootIds_lineage {first : MigrationEntry} (h : Lineage entries (first :: chain)) :
    rootIds entries = [first.id] := by
  have hnone : chain.filter (·.parent.isNone) = [] := by
    refine filter_eq_nil_iff.mpr fun e he => ?_
    obtain hparent | ⟨_, _, hparent⟩ := h.linked.2.parent_of_mem he <;> simp [hparent]
  have hroot : first.parent.isNone := by simp [h.linked.1]
  have hfirst : rootIds (first :: chain) = [first.id] := by
    simp [rootIds, hroot, hnone]
  exact perm_singleton.mp (hfirst ▸ rootIds_perm h.perm).symm

/-- Every migration but the first finds its parent. -/
theorem parents_lineage (h : Lineage entries chain)
    (hp : p ∈ entries.filterMap (·.parent)) : p ∈ entries.map (·.id) := by
  obtain ⟨e, he, hparent⟩ := mem_filterMap.mp hp
  obtain hnone | ⟨b, hb, hsome⟩ := h.linked.parent_of_mem (h.perm.mem_iff.mpr he)
  · cases hparent.symm.trans hnone
  · obtain rfl := Option.some.inj (hparent.symm.trans hsome)
    exact mem_map_of_mem (h.perm.mem_iff.mp hb)

theorem nodup_parents_lineage (h : Lineage entries chain) (hids : (entries.map (·.id)).Nodup) :
    (entries.filterMap (·.parent)).Nodup :=
  (h.perm.filterMap _).nodup_iff.mp
    (h.linked.nodup_parents ((h.perm.map _).nodup_iff.mpr hids))

/-- The check accepts a lineage. -/
theorem validateHistory_of_lineage (hvalid : ∀ e ∈ entries, validateEntry e = .ok ())
    (hids : (entries.map (·.id)).Nodup) (h : Lineage entries chain) :
    validateHistory entries = .ok (chain.getLast?.map (·.id)) := by
  refine bind_eq_ok.mpr ⟨_, collectIds_eq_ok.mpr ⟨hvalid, hids, by simp, rfl⟩, ?_⟩
  cases chain with
  | nil =>
    obtain rfl := h.perm.nil_eq
    rfl
  | cons first rest =>
    have hne : entries ≠ [] := fun heq => by simpa [heq] using h.perm.length_eq
    have hparents := nodup_parents_lineage h hids
    have hlength : entries.length = rest.length + 1 := h.perm.length_eq.symm
    have hlinks : entries.foldlM (link ((entries.map (·.id)).reverse ++ [])) ⟨[], []⟩ =
        .ok ⟨[first.id], (childPairs entries).reverse⟩ := by
      refine foldlM_link_eq_ok.mpr ⟨fun p hp => ⟨?_, not_mem_nil⟩, hparents, ?_⟩
      · simpa using parents_lineage h hp
      · simp [rootIds_lineage h]
    obtain ⟨head, hfollow, htip⟩ : ∃ head,
        follow (childPairs entries).reverse (entries.length + 1) [] first.id =
          .ok (((first :: rest).map (·.id)).reverse, head) ∧
        Linked.tip MigrationEntry.id none (first :: rest) = some head :=
      follow_complete hparents [] (fun d => h.perm.mem_iff)
        ((h.perm.map _).nodup_iff.mpr hids) h.linked
        (by omega)
    rw [if_neg (by simpa using hne)]
    refine bind_eq_ok.mpr ⟨_, hlinks, bind_eq_ok.mpr ⟨_, hfollow, ?_⟩⟩
    rw [Linked.tip_eq, Option.or_none] at htip
    simp [hlength, htip]

/-- The check accepts nothing else. -/
theorem lineage_of_validateHistory {head : Option String} (h : validateHistory entries = .ok head) :
    (∀ e ∈ entries, validateEntry e = .ok ()) ∧ (entries.map (·.id)).Nodup ∧
      ∃ chain, Lineage entries chain ∧ head = chain.getLast?.map (·.id) := by
  obtain ⟨ids, hcollect, h⟩ := of_bind h
  obtain ⟨hvalid, hids, _, rfl⟩ := collectIds_eq_ok.mp hcollect
  refine ⟨hvalid, hids, ?_⟩
  split at h
  · next hempty =>
    cases h
    exact ⟨[], ⟨by simpa using hempty, trivial⟩, rfl⟩
  · obtain ⟨links, hlinks, h⟩ := of_bind h
    obtain ⟨_, hparents, rfl⟩ := foldlM_link_eq_ok.mp hlinks
    dsimp only [nil_append] at h
    split at h
    · next root hroot =>
      obtain ⟨⟨seen, last⟩, hfollow, h⟩ := of_bind h
      dsimp only at h
      obtain ⟨hlength, h⟩ := of_refused h
      cases h
      obtain ⟨e, he, rfl⟩ : ∃ e ∈ entries.filter (·.parent.isNone), e.id = root := by
        have hmem : root ∈ rootIds entries := by simp [hroot]
        simpa [rootIds] using hmem
      obtain ⟨he, hnone⟩ := mem_filter.mp he
      rw [append_nil] at hfollow
      obtain ⟨chain, hmem, hnodup, hlinked, rfl, htip⟩ : ∃ chain, (∀ d ∈ chain, d ∈ entries) ∧
          (chain.map (·.id)).Nodup ∧ Linked MigrationEntry.id MigrationEntry.parent none chain ∧
          seen = (chain.map (·.id)).reverse ∧
          Linked.tip MigrationEntry.id none chain = some last := by
        refine follow_sound hparents [] hfollow (by simpa using he) nodup_nil ?_
        exact ⟨by simpa using hnone, trivial⟩
      refine ⟨chain, ⟨?_, hlinked⟩, ?_⟩
      · refine (subperm_of_subset (hnodup.of_map _) hmem).perm_of_length_le ?_
        simp at hlength
        omega
      · rw [← htip, Linked.tip_eq, Option.or_none]
    · cases h
    · cases h

theorem Lineage.eq {other : List MigrationEntry} (h : Lineage entries chain)
    (hother : Lineage entries other) (hids : (entries.map (·.id)).Nodup) : other = chain :=
  hother.linked.eq_of_perm h.linked (hother.perm.trans h.perm.symm)
    ((hother.perm.map _).nodup_iff.mpr hids) fun _ _ heq => nomatch heq

theorem validateNext_apply {decision : ApplyDecision}
    (hnew : ∀ e ∈ entries, e.id ≠ entry.id) (h : validateNext entries entry = .ok decision) :
    validateHistory entries = .ok entry.parent ∧ validateEntry entry = .ok () := by
  obtain ⟨head, hhead, _, hvalid, h⟩ := of_bind₂ h
  have hfind : entries.find? (fun e => e.id = entry.id) = none := by simpa using hnew
  rw [hfind] at h
  dsimp only at h
  split at h
  · cases h
  · next hparent => exact ⟨hhead.trans (by rw [not_ne_iff.mp hparent]), hvalid⟩

/-- **One more migration keeps the line.** -/
theorem Lineage.append (h : Lineage entries chain)
    (hparent : entry.parent = chain.getLast?.map (·.id)) :
    Lineage (entries ++ [entry]) (chain ++ [entry]) := by
  refine ⟨h.perm.append_right _, Linked.append.mpr ⟨h.linked, ?_, trivial⟩⟩
  rw [hparent, Linked.tip_eq, Option.or_none]

theorem validateHistory_append {extended : List MigrationEntry}
    (hnew : ∀ e ∈ entries, e.id ≠ entry.id) (h : appendMigration entries entry = .ok extended) :
    extended = entries ++ [entry] ∧ validateHistory extended = .ok (some entry.id) := by
  obtain ⟨_, hnext, h⟩ := of_bind h
  obtain ⟨hhead, hentry⟩ := validateNext_apply hnew hnext
  obtain ⟨hvalid, hids, chain, hchain, hparent⟩ := lineage_of_validateHistory hhead
  cases h
  refine ⟨rfl, ?_⟩
  have hvalid : ∀ e ∈ entries ++ [entry], validateEntry e = .ok () := by
    simpa [or_imp, forall_and, hentry] using hvalid
  have hids : ((entries ++ [entry]).map (·.id)).Nodup := by
    rw [map_append, nodup_append]
    exact ⟨hids, nodup_singleton _, by simpa using hnew⟩
  rw [validateHistory_of_lineage hvalid hids (hchain.append hparent)]
  simp

/-- **The ledger is one line.** -/
theorem ledger_linear (entries : List MigrationEntry) :
    ((∃ head, validateHistory entries = .ok head) ↔
      (∀ e ∈ entries, validateEntry e = .ok ()) ∧ (entries.map (·.id)).Nodup ∧
        ∃ chain, Lineage entries chain) ∧
    (∀ head, validateHistory entries = .ok head →
      ∃ chain, Lineage entries chain ∧ (∀ other, Lineage entries other → other = chain) ∧
        head = chain.getLast?.map (·.id)) ∧
    (∀ head entry extended, validateHistory entries = .ok head → (∀ e ∈ entries, e.id ≠ entry.id) →
      appendMigration entries entry = .ok extended →
      extended = entries ++ [entry] ∧ validateHistory extended = .ok (some entry.id)) := by
  refine ⟨⟨?_, ?_⟩, ?_, fun _ entry extended _ hnew h => validateHistory_append hnew h⟩
  · rintro ⟨head, h⟩
    obtain ⟨hvalid, hids, chain, hchain, _⟩ := lineage_of_validateHistory h
    exact ⟨hvalid, hids, chain, hchain⟩
  · rintro ⟨hvalid, hids, chain, hchain⟩
    exact ⟨_, validateHistory_of_lineage hvalid hids hchain⟩
  · intro head h
    obtain ⟨_, hids, chain, hchain, rfl⟩ := lineage_of_validateHistory h
    exact ⟨chain, hchain, fun other hother => hchain.eq hother hids, rfl⟩

/-- The second migration of a ledger. -/
theorem ledger_linear_second :
    appendMigration [⟨"m1", none, "c1", 1, "sha256:a", 10⟩]
      ⟨"m2", some "m1", "c2", 2, "sha256:b", 20⟩ =
        .ok [⟨"m1", none, "c1", 1, "sha256:a", 10⟩, ⟨"m2", some "m1", "c2", 2, "sha256:b", 20⟩] ∧
      validateHistory [⟨"m1", none, "c1", 1, "sha256:a", 10⟩,
        ⟨"m2", some "m1", "c2", 2, "sha256:b", 20⟩] =
        .ok (some "m2") := by
  have happend : appendMigration [⟨"m1", none, "c1", 1, "sha256:a", 10⟩]
      ⟨"m2", some "m1", "c2", 2, "sha256:b", 20⟩ =
        .ok [⟨"m1", none, "c1", 1, "sha256:a", 10⟩, ⟨"m2", some "m1", "c2", 2, "sha256:b", 20⟩] :=
          rfl
  have hone : validateHistory [⟨"m1", none, "c1", 1, "sha256:a", 10⟩] = .ok (some "m1") := rfl
  exact ⟨happend, ((ledger_linear _).2.2 _ _ _ hone (by decide) happend).2⟩

end UnionId.Ledger
