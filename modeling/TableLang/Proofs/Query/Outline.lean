import TableLang.Query.Outline

/-! The outline of a query by recursion on its parts: each condition is written at the depth at
which it stands in its tree. The pass over the events of the query writes the same text, since the
depth that it keeps is back where it was whenever a condition has been left. -/
namespace TableLang

namespace Condition

def headline : Condition → String
  | group c _ => c.name
  | predicate p => p.describe

mutual
def outline (depth : Nat) : Condition → String
  | group c parts => indented depth c.name ++ outlineAll (depth + 1) parts
  | predicate p => indented depth p.describe

def outlineAll (depth : Nat) : List Condition → String
  | [] => ""
  | c :: cs => c.outline depth ++ outlineAll depth cs
end

mutual
theorem foldl_events (o : Outline) (index : Nat) :
    (c : Condition) → (c.events index).foldl Outline.step o =
      { o with text := o.text ++ c.outline (o.depth + 1) }
  | group c parts => by
    -- The parts are walked through one level deeper, below the line for the group.
    have hparts := foldl_eventsAll (Outline.step o (.enter index (group c parts))) 0 parts
    simp only [events, List.cons_append, List.foldl_cons, List.foldl_append, List.foldl_nil, hparts]
    simp [Outline.step, Outline.line, outline, String.append_assoc]
  | predicate p => by
    simp [events, Outline.step, Outline.line, outline]

theorem foldl_eventsAll (o : Outline) (index : Nat) :
    (cs : List Condition) → (eventsAll index cs).foldl Outline.step o =
      { o with text := o.text ++ outlineAll (o.depth + 1) cs }
  | [] => by simp [eventsAll, outlineAll]
  | c :: cs => by
    have hfirst := foldl_events o index c
    have hrest :=
      foldl_eventsAll { o with text := o.text ++ c.outline (o.depth + 1) } (index + 1) cs
    rw [eventsAll, List.foldl_append, hfirst, hrest, outlineAll, String.append_assoc]
end

end Condition

def limitLine : Option Nat → String
  | some n => indented 1 ("limit " ++ toString n)
  | none => ""

def conditionLines : Option Condition → String
  | some c => indented 1 "where" ++ c.outline 2
  | none => ""

def rowLines : List Row → String
  | [] => ""
  | r :: rs => indented 1 r.describe ++ rowLines rs

def Body.outline : Body → String
  | select s => limitLine s.rowLimit ++ conditionLines s.condition
  | join rows => rowLines rows

theorem foldl_rows (rows : List Row) (index : Nat) (text : String) :
    ((rows.zipIdx index).map fun r => Event.row r.2 r.1).foldl Outline.step ⟨1, text⟩ =
      ⟨1, text ++ rowLines rows⟩ := by
  induction rows generalizing index text with
  | nil => simp [rowLines]
  | cons r rows ih =>
    have hrest := ih (index + 1) (text ++ indented 1 r.describe)
    rw [String.append_assoc] at hrest
    exact hrest

theorem Body.foldl_events (body : Body) (text : String) :
    body.events.foldl Outline.step ⟨1, text⟩ = ⟨1, text ++ body.outline⟩ := by
  cases body with
  | select s =>
    obtain ⟨limit, condition⟩ := s
    cases hlimit : Selection.rowLimit ⟨limit, condition⟩ <;> cases condition <;>
      simp [Body.events, Body.outline, hlimit, limitLine, conditionLines, Outline.step,
        Outline.line, Condition.foldl_events, String.append_assoc]
  | join rows => exact foldl_rows rows 0 text

theorem Query.outline_eq (q : Query) :
    q.outline = q.operation.name ++ " " ++ q.tableKey ++ "\n" ++ q.body.outline := by
  have hbody := q.body.foldl_events (q.operation.name ++ " " ++ q.tableKey ++ "\n")
  simpa [Query.outline, Query.events, Outline.step, Outline.empty] using
    congrArg Outline.text hbody

end TableLang
