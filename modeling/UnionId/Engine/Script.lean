import UnionId.Query.Expression
import UnionId.Db.Types

/-!
# Scripts

A script is a list of statements that is executed as one batch. The engine looks at the
kind of a statement and at affected-row guards (`expect`); what a statement does to the
database is up to the executor, so the body of a statement is a parameter here.
-/
namespace UnionId.Scripts

def MAX_SCRIPT_STATEMENTS : ℕ := 4096

inductive StatementKind where
  | createSequence
  | defineType
  | createTable
  | table
  | createIndex
  | createReference
  | dropReference
  | insert
  | insertMany
  | upsert
  | upsertMany
  | update
  | delete
  | migration
  | explain
  | explainAnalyze
  | query
  | expect
  deriving DecidableEq, Repr

/-- A statement; an affected-row guard is the only one that the engine itself runs. -/
inductive Statement (Body : Type) where
  | expect (op : CmpOp) (affected : ℕ)
  | run (kind : StatementKind) (body : Body)

variable {Body : Type}

def Statement.kind : Statement Body → StatementKind
  | .expect _ _ => .expect
  | .run kind _ => kind

def StatementKind.isDml : StatementKind → Bool
  | .insert | .insertMany | .upsert | .upsertMany | .update | .delete => true
  | _ => false

def StatementKind.isMutating : StatementKind → Bool
  | .expect | .explain | .explainAnalyze | .query => false
  | _ => true

def StatementKind.changesSchema : StatementKind → Bool
  | .createSequence | .defineType | .createTable | .table | .createIndex | .createReference
  | .dropReference | .migration => true
  | _ => false

def Statement.isMutating (s : Statement Body) : Bool := s.kind.isMutating

def Statement.changesSchema (s : Statement Body) : Bool := s.kind.changesSchema

/-- Every guard directly follows a row mutation; `previous` is the kind of the statement
before. -/
def guardsFollow (previous : Option StatementKind) : List (Statement Body) → Bool
  | [] => true
  | .expect _ _ :: rest => previous.any StatementKind.isDml && guardsFollow (some .expect) rest
  | .run kind _ :: rest => guardsFollow (some kind) rest

def preflight (statements : List (Statement Body)) : Result Unit :=
  if statements.length > MAX_SCRIPT_STATEMENTS then
    fail .E_LIMIT "script exceeds the 4096 statement limit"
  else if !guardsFollow none statements then
    fail .E_EXPECTATION_CONTEXT "expect must immediately follow a mutation"
  else .ok ()

def satisfies (actual : ℕ) (op : CmpOp) (expected : ℕ) : Bool :=
  match op with
  | .eq => actual == expected
  | .ne => actual != expected
  | .gt => actual > expected
  | .gte => actual ≥ expected
  | .lt => actual < expected
  | .lte => actual ≤ expected

structure StatementSummary where
  index : ℕ
  kind : StatementKind
  affectedRows : Option ℕ
  deriving DecidableEq, Repr

/-- One summary against its position and the summary before it. -/
def summaryValid (index : ℕ) (previous : Option StatementSummary) (s : StatementSummary) : Bool :=
  s.index == index + 1 && s.affectedRows.isSome == s.kind.isDml &&
    (s.kind != .expect || previous.any fun p => p.affectedRows.isSome)

def summariesValid (index : ℕ) (previous : Option StatementSummary) :
    List StatementSummary → Bool
  | [] => true
  | s :: rest => summaryValid index previous s && summariesValid (index + 1) (some s) rest

def validateSummaries (summaries : List StatementSummary) : Result Unit :=
  if summaries.length > MAX_SCRIPT_STATEMENTS || !summariesValid 0 none summaries then
    fail .E_LIMIT "invalid or excessive statement summaries"
  else .ok ()

/-! ## Responses -/

structure SchemaInfo where
  revision : ℕ
  hash : String
  deriving DecidableEq, Repr

/-- The response to a script. `detail` stands for the parts that the engine passes on
without looking at them: columns, upsert actions, plans, page and analysis. -/
structure QueryResponse (Detail : Type) where
  ok : Bool
  message : Message
  rows : List Fields
  error : Option Error
  warnings : List Message
  schema : Option SchemaInfo
  affectedRows : Option ℕ
  statements : List StatementSummary
  detail : Option Detail

def QueryResponse.okMessage {Detail : Type} (message : Message) : QueryResponse Detail where
  ok := true
  message
  rows := []
  error := none
  warnings := []
  schema := none
  affectedRows := none
  statements := []
  detail := none

end UnionId.Scripts
