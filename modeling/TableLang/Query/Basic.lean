import TableLang.Draft.Basic
import TableLang.Operator

/-! Compiled queries: every word in them has been given its meaning. -/
namespace TableLang

structure Predicate where
  comparison : Comparison
  keys : List String
  literals : List String
  usesRowKey : Bool
deriving DecidableEq

inductive Condition where
  | group (c : Connective) (parts : List Condition)
  | predicate (p : Predicate)

namespace Condition

def kind : Condition → ClauseKind
  | group c _ => .group c
  | predicate _ => .predicate

def parts : Condition → List Condition
  | group _ parts => parts
  | predicate _ => []

mutual
def decEq : (a b : Condition) → Decidable (a = b)
  | group c ps, group d qs =>
    if h : c = d then
      match decEqAll ps qs with
      | .isTrue hs => .isTrue (by rw [h, hs])
      | .isFalse hs => .isFalse fun e => hs (group.inj e).2
    else .isFalse fun e => h (group.inj e).1
  | predicate p, predicate q =>
    if h : p = q then .isTrue (by rw [h]) else .isFalse fun e => h (predicate.inj e)
  | group _ _, predicate _ => .isFalse nofun
  | predicate _, group _ _ => .isFalse nofun

def decEqAll : (as bs : List Condition) → Decidable (as = bs)
  | [], [] => .isTrue rfl
  | a :: as, b :: bs =>
    match decEq a b, decEqAll as bs with
    | .isTrue h, .isTrue hs => .isTrue (by rw [h, hs])
    | .isFalse h, _ => .isFalse fun e => h (List.cons.inj e).1
    | _, .isFalse hs => .isFalse fun e => hs (List.cons.inj e).2
  | [], _ :: _ => .isFalse nofun
  | _ :: _, [] => .isFalse nofun
end

instance : DecidableEq Condition := decEq

end Condition

structure Selection where
  /-- The greatest number of rows, or 0 for any number. -/
  limit : Nat
  condition : Option Condition
deriving DecidableEq

namespace Selection

def rowLimit (s : Selection) : Option Nat :=
  if 0 < s.limit then some s.limit else none

end Selection

inductive Body where
  | select (s : Selection)
  | join (rows : List Row)
deriving DecidableEq

namespace Body

def operation : Body → Operation
  | select _ => .select
  | join _ => .join

end Body

structure Query where
  tableKey : String
  body : Body
  draft : Draft
deriving DecidableEq

namespace Query

def operation (q : Query) : Operation := q.body.operation

def rowLimit (q : Query) : Option Nat :=
  match q.body with
  | .select s => s.rowLimit
  | .join _ => none

end Query
end TableLang
