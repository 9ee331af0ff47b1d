import TableLang.Query.Basic
import TableLang.Query.CompileError

/-! From drafts to queries. The words of a draft are given their meaning, and the first one without
meaning is reported, with the way to it: the limit comes before the clauses, and clauses come in the
order of the text. -/
namespace TableLang

def PredicateDraft.compile (p : PredicateDraft) : Except CompileError Predicate :=
  match Comparison.ofName? p.command with
  | some comparison => .ok ⟨comparison, p.keys, p.literals, p.usesRowKey⟩
  | none => .error (.unsupportedComparison p.command)

namespace Condition

mutual
def ofTree : Tree (Nat × ClauseDraft) → Except CompileError Condition
  | .node (_, c) children =>
    match ClauseKind.ofName? c.command, c.predicate with
    | some (.group connective), _ =>
      match ofForest 0 children with
      | .ok parts => .ok (.group connective parts)
      | .error e => .error (.inGroup connective e)
    | some .predicate, some p =>
      -- The clauses in a predicate are passed over.
      match p.compile with
      | .ok compiled => .ok (.predicate compiled)
      | .error e => .error (.inPredicate e)
    | _, _ => .error (.unsupportedClause c.command)

def ofForest (index : Nat) : List (Tree (Nat × ClauseDraft)) → Except CompileError (List Condition)
  | [] => .ok []
  | t :: ts =>
    match ofTree t with
    | .error e => .error (.inChild index e)
    | .ok part =>
      match ofForest (index + 1) ts with
      | .ok parts => .ok (part :: parts)
      | .error e => .error e
end

/-- The meaning of the clauses under a root. The root is only the frame of the outermost clause: a
root around a single clause means that clause. -/
def ofRoot (t : Tree (Nat × ClauseDraft)) : Except CompileError Condition :=
  match t.children with
  | [only] => ofTree only
  | _ => ofTree t

end Condition

namespace Draft

def compileLimit (d : Draft) : Except CompileError Nat :=
  if d.limit = "" then .ok 0
  else match Text.readNumeral d.limit.toList with
    | .ok n => .ok n
    | .error e => .error (.badLimit d.limit e)

def compileCondition (d : Draft) : Except CompileError (Option Condition) :=
  match d.root with
  | none => .ok none
  | some id =>
    match d.clauseTree? id with
    | none => .error (.inWhere (.missingClause id))
    | some t =>
      match Condition.ofRoot t with
      | .ok c => .ok (some c)
      | .error e => .error (.inWhere e)

def compileSelection (d : Draft) : Except CompileError Selection := do
  let limit ← d.compileLimit
  let condition ← d.compileCondition
  .ok ⟨limit, condition⟩

def compile (d : Draft) : Except CompileError Query :=
  match Operation.ofName? d.command with
  | none => .error (.unknownCommand d.command)
  | some .join => .ok ⟨d.tableKey, .join d.rows, d⟩
  | some .select =>
    match d.compileSelection with
    | .ok s => .ok ⟨d.tableKey, .select s, d⟩
    | .error e => .error (.inSelect e)

end Draft
end TableLang
