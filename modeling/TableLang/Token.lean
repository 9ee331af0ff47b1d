import TableLang.Label

/-! Tokens: labelled spans of the input. -/
namespace TableLang

/-- The characters from offset `start` up to but not including offset `stop`, and what they are. -/
structure Token where
  label : Label
  start : Nat
  stop : Nat
deriving DecidableEq

namespace Token

def blank : Token := ⟨.blank, 0, 0⟩

def length (t : Token) : Nat := t.stop - t.start

def isEmpty (t : Token) : Bool := t.start = t.stop

def describe (t : Token) : String :=
  t.label.name ++ " " ++ toString t.start ++ " " ++ toString t.stop

def within (t u : Token) : Bool := u.start ≤ t.start && t.stop ≤ u.stop

end Token

def slice? (input : List Char) (start stop : Nat) : Option (List Char) :=
  if start ≤ stop ∧ stop ≤ input.length then some ((input.drop start).take (stop - start))
  else none

end TableLang
