import TableLang.Query.Event

/-! The outline of a query: a line for the query itself, and below it a line for each part,
indented by its depth. It is written in one pass over the events of the query. -/
namespace TableLang

def Predicate.describe (p : Predicate) : String :=
  let rowKey := if p.usesRowKey then ["row-key"] else []
  let keys := if p.keys.isEmpty then [] else ["keys [" ++ String.intercalate ", " p.keys ++ "]"]
  let literals :=
    if p.literals.isEmpty then []
    else ["literals [" ++ String.intercalate ", " (p.literals.map fun l => "'" ++ l ++ "'") ++ "]"]
  String.intercalate " " (p.comparison.name :: rowKey ++ keys ++ literals)

def Row.describe (r : Row) : String :=
  "row " ++ r.key ++ " (" ++ toString r.entries.size ++ " entries)"

def indented (depth : Nat) (text : String) : String :=
  String.ofList (List.replicate (2 * depth) ' ') ++ text ++ "\n"

structure Outline where
  depth : Nat
  text : String

namespace Outline

def empty : Outline := ⟨0, ""⟩

def line (o : Outline) (text : String) : Outline :=
  { o with text := o.text ++ indented o.depth text }

def step (o : Outline) : Event → Outline
  | .draft _ => o
  | .operation op => { o with text := o.text ++ op.name }
  | .tableKey key => ⟨1, o.text ++ " " ++ key ++ "\n"⟩
  | .select s =>
    let limited := match s.rowLimit with
      | some n => o.line ("limit " ++ toString n)
      | none => o
    if s.condition.isSome then limited.line "where" else limited
  | .enter _ c =>
    let deeper := { o with depth := o.depth + 1 }
    match c with
    | .group connective _ => deeper.line connective.name
    | .predicate _ => deeper
  | .predicate p => o.line p.describe
  | .leave _ => { o with depth := o.depth - 1 }
  | .join _ => o
  | .row _ r => o.line r.describe

end Outline

def Query.outline (q : Query) : String :=
  (q.events.foldl Outline.step .empty).text

end TableLang
