import TableLang.Draft.Basic
import TableLang.Operator

/-! The edits that fill in a draft. Most of them concern the innermost clause being filled in, and
fail if there is none. -/
namespace TableLang

inductive Edit where
  | chooseSelect
  | nameTable (key : String)
  | setLimit (text : String)
  | openRoot
  | enterClause
  | leaveClause
  | becomePredicate
  | becomeGroup (c : Connective)
  | nameComparison (word : String)
  | useRowKey
  | addKey (key : String)
  | addLiteral (text : String)
deriving DecidableEq

inductive Fault where
  | noClause
  | atRoot
  | noPredicate (command : String)
  /-- A clause is referred to that is not there. -/
  | missingClause (id : Nat)
  | badSpan (start stop : Nat)
deriving DecidableEq

namespace Fault

def message : Fault → String
  | noClause => "BUG where stack empty"
  | atRoot => "BUG attempted to pop the root where clause"
  | noPredicate command => "BUG predicate not initialised on '" ++ command ++ "' where clause"
  | missingClause id => "no clause " ++ toString id
  | badSpan start stop => "no span from " ++ toString start ++ " to " ++ toString stop

end Fault

namespace Draft

def editClause (d : Draft) (change : ClauseDraft → Except Fault ClauseDraft) :
    Except Fault Draft :=
  match d.path with
  | [] => .error .noClause
  | id :: _ =>
    match d.clauses[id]? with
    | none => .error (.missingClause id)
    | some c => do
      let changed ← change c
      .ok { d with clauses := d.clauses.setIfInBounds id changed }

def editPredicate (d : Draft) (change : PredicateDraft → PredicateDraft) : Except Fault Draft :=
  d.editClause fun c =>
    match c.predicate with
    | none => .error (.noPredicate c.command)
    | some p => .ok { c with predicate := some (change p) }

def apply (d : Draft) : Edit → Except Fault Draft
  | .chooseSelect => .ok { d with command := Operation.select.name }
  | .nameTable key => .ok { d with tableKey := key }
  | .setLimit text => .ok { d with limit := text }
  | .openRoot =>
    -- Clauses begun before stay where they are, but nothing leads to them any more.
    .ok { d with
      root := some d.clauses.size
      path := [d.clauses.size]
      clauses := d.clauses.push { command := Connective.and.name } }
  | .enterClause => do
    let child := d.clauses.size
    let e ← d.editClause fun c => .ok { c with children := c.children ++ [child] }
    .ok { e with clauses := e.clauses.push {}, path := child :: e.path }
  | .leaveClause =>
    match d.path with
    | [] => .error .noClause
    | [_] => .error .atRoot
    | _ :: outer => .ok { d with path := outer }
  | .becomePredicate =>
    d.editClause fun c => .ok { c with command := ClauseKind.predicate.name, predicate := some {} }
  | .becomeGroup connective => d.editClause fun c => .ok { c with command := connective.name }
  | .nameComparison word => d.editPredicate fun p => { p with command := word }
  | .useRowKey => d.editPredicate fun p => { p with usesRowKey := true }
  | .addKey key => d.editPredicate fun p => { p with keys := p.keys ++ [key] }
  | .addLiteral text => d.editPredicate fun p => { p with literals := p.literals ++ [text] }

def applyAll (d : Draft) (edits : List Edit) : Except Fault Draft :=
  edits.foldlM Draft.apply d

end Draft
end TableLang
