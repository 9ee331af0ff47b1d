import TableLang.Row
import TableLang.Tree

/-! A query under construction. Its clauses stand in one array in the order in which they were
begun, and refer to the clauses in them by index. The words in it are kept as they were given:
whether they mean anything is found out when the draft is compiled. -/
namespace TableLang

structure PredicateDraft where
  command : String := ""
  keys : List String := []
  literals : List String := []
  usesRowKey : Bool := false
deriving DecidableEq

/-- A clause under construction; an empty command means that nothing was said about it yet. -/
structure ClauseDraft where
  command : String := ""
  children : List Nat := []
  predicate : Option PredicateDraft := none
deriving DecidableEq

structure Draft where
  command : String := ""
  tableKey : String := ""
  limit : String := ""
  root : Option Nat := none
  /-- The rows to join, which no text can give. -/
  rows : List Row := []
  clauses : Array ClauseDraft := #[]
  /-- The clauses being filled in, innermost first; the last is the root. -/
  path : List Nat := []
deriving DecidableEq

namespace ClauseDraft

def isStarted (c : ClauseDraft) : Bool := c.command ≠ ""

end ClauseDraft

namespace Draft

def withCommand (d : Draft) (command : String) : Draft := { d with command := command }

def addRow (d : Draft) (row : Row) : Draft := { d with rows := d.rows ++ [row] }

/-- The clause of index `id` with the clauses in it, down to `depth` levels; none if one of them is
not there or lies deeper. -/
def subtree? (d : Draft) : Nat → Nat → Option (Tree (Nat × ClauseDraft))
  | 0, _ => none
  | depth + 1, id => do
    let c ← d.clauses[id]?
    let children ← c.children.mapM (d.subtree? depth)
    some (.node (id, c) children)

def clauseTree? (d : Draft) (id : Nat) : Option (Tree (Nat × ClauseDraft)) :=
  -- No chain of nested clauses is longer than the number of clauses.
  d.subtree? d.clauses.size id

def reachable (d : Draft) : List (Nat × ClauseDraft) :=
  match d.root.bind d.clauseTree? with
  | some t => t.preorder
  | none => []

end Draft
end TableLang
