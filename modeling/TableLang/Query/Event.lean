import TableLang.Query.Basic

/-! A query as a sequence of events, in the order in which its parts are met on a walk through it.
-/
namespace TableLang

inductive Event where
  | draft (d : Draft)
  | operation (o : Operation)
  | tableKey (key : String)
  | select (s : Selection)
  | enter (index : Nat) (c : Condition)
  | predicate (p : Predicate)
  | leave (c : Condition)
  | join (rows : List Row)
  | row (index : Nat) (r : Row)

namespace Condition

mutual
def events (index : Nat) : Condition → List Event
  | group c parts =>
    .enter index (group c parts) :: eventsAll 0 parts ++ [.leave (group c parts)]
  | predicate p => [.enter index (predicate p), .predicate p, .leave (predicate p)]

def eventsAll (index : Nat) : List Condition → List Event
  | [] => []
  | c :: cs => events index c ++ eventsAll (index + 1) cs
end

end Condition

namespace Body

def events : Body → List Event
  | select s =>
    .select s :: match s.condition with
      | some c => c.events 0
      | none => []
  | join rows => .join rows :: rows.zipIdx.map fun r => .row r.2 r.1

end Body

namespace Query

def events (q : Query) : List Event :=
  .draft q.draft :: .operation q.operation :: .tableKey q.tableKey :: q.body.events

end Query
end TableLang
