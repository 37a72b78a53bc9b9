import UnionId.Db.Reference

/-!
# Tables by name and identity

Tables are listed by name, while references name them by identity. In a well
formed database both agree, and replacing the rows of a table changes neither.
-/
namespace UnionId

open Lib Std List

/-- Tables are listed under their names and have distinct identities. -/
structure TablesWF (db : Database) : Prop where
  named : ∀ (name : String) (table : Table), db.objects[name]? = some table → table.name = name
  distinct : ∀ (a b : String) (s t : Table), db.objects[a]? = some s → db.objects[b]? = some t →
    s.id = t.id → a = b

namespace Database

variable {db : Database} {name : String} {table : Table}

theorem table_eq_ok : db.table name = .ok table ↔ db.objects[name]? = some table := by
  unfold Database.table
  cases db.objects[name]? <;> simp

def setRows (db : Database) (name : String) (table : Table) (rows : List Row) : Database :=
  { db with objects := db.objects.insert name { table with rows } }

theorem getElem?_setRows {rows : List Row} {other : String} :
    (db.setRows name table rows).objects[other]? =
      if name = other then some { table with rows } else db.objects[other]? := by
  simp [setRows, ExtTreeMap.getElem?_insert]

end Database

variable {db : Database} {table : Table} {name : String}

theorem TablesWF.tableById_eq_some (h : TablesWF db) {id : UInt64} :
    db.tableById id = some table ↔ db.objects[table.name]? = some table ∧ table.id = id := by
  unfold Database.tableById Database.schemaTables
  constructor
  · intro hfind
    obtain ⟨name, hname⟩ := mem_valuesOf.mp (mem_of_find?_eq_some hfind)
    exact ⟨(h.named name table hname) ▸ hname, by simpa using find?_some hfind⟩
  · rintro ⟨hname, rfl⟩
    obtain ⟨other, hother⟩ := Option.isSome_iff_exists.mp (find?_isSome.mpr
      ⟨table, mem_valuesOf.mpr ⟨_, hname⟩, decide_eq_true rfl⟩ :
        ((valuesOf db.objects).find? fun t => t.id = table.id).isSome)
    obtain ⟨name', hname'⟩ := mem_valuesOf.mp (mem_of_find?_eq_some hother)
    have hid : other.id = table.id := by simpa using find?_some hother
    obtain rfl := h.distinct _ _ _ _ hname' hname hid
    rw [hother, hname'.symm.trans hname]

/-- New rows keep the tables well formed. -/
theorem TablesWF.setRows (h : TablesWF db) (ht : db.objects[name]? = some table) (rows : List Row) :
    TablesWF (db.setRows name table rows) := by
  have hold : ∀ (n : String) (t : Table), (db.setRows name table rows).objects[n]? = some t →
      ∃ t', db.objects[n]? = some t' ∧ t'.name = t.name ∧ t'.id = t.id := by
    intro n t hn
    rw [Database.getElem?_setRows] at hn
    split at hn
    · rename_i heq
      cases hn
      exact ⟨table, heq ▸ ht, rfl, rfl⟩
    · exact ⟨t, hn, rfl, rfl⟩
  refine ⟨fun n t hn => ?_, fun a b s t ha hb hid => ?_⟩
  · obtain ⟨t', hn', hname, -⟩ := hold n t hn
    exact hname ▸ h.named n t' hn'
  · obtain ⟨s', ha', -, hs⟩ := hold a s ha
    obtain ⟨t', hb', -, ht'⟩ := hold b t hb
    exact h.distinct a b s' t' ha' hb' (by rw [hs, ht', hid])

/-- The rows of the table with an identity. -/
def Database.rowsOf (db : Database) (id : UInt64) : List Row :=
  match db.tableById id with
  | some table => table.rows
  | none => []

theorem TablesWF.rowsOf_eq (h : TablesWF db)
    (ht : db.objects[name]? = some table) : db.rowsOf table.id = table.rows := by
  have hn := h.named name table ht
  unfold Database.rowsOf
  rw [h.tableById_eq_some.mpr ⟨hn ▸ ht, rfl⟩]

theorem TablesWF.rowsOf_setRows (h : TablesWF db)
    (ht : db.objects[name]? = some table) (rows : List Row) (id : UInt64) :
    (db.setRows name table rows).rowsOf id = if id = table.id then rows else db.rowsOf id := by
  have hw := h.setRows ht rows
  split
  · rename_i hid
    subst hid
    have hnew : (db.setRows name table rows).objects[name]? = some { table with rows } := by
      rw [Database.getElem?_setRows, if_pos rfl]
    exact hw.rowsOf_eq hnew
  · rename_i hid
    unfold Database.rowsOf
    have hsame : (db.setRows name table rows).tableById id = db.tableById id := by
      refine Option.ext fun t => ?_
      rw [hw.tableById_eq_some, h.tableById_eq_some, Database.getElem?_setRows]
      constructor
      · rintro ⟨hn, rfl⟩
        split at hn
        · cases hn
          exact absurd rfl hid
        · exact ⟨hn, rfl⟩
      · rintro ⟨hn, rfl⟩
        split
        · rename_i heq
          rw [← heq, ht] at hn
          cases hn
          exact absurd rfl hid
        · exact ⟨hn, rfl⟩
    rw [hsame]

end UnionId
