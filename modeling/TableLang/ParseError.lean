import TableLang.Label
import TableLang.Position
import TableLang.Text.Quoted

/-! What can be chosen for a reading, why a text is not a query, and the wording of the reasons. -/
namespace TableLang

structure Settings where
  maxDepth : Nat := 100
  /-- For how many tokens room is made in advance; no result depends on it. -/
  tokenCapacity : Nat := 256
  highlight : Bool := false
deriving DecidableEq

/-- The greatest length of a text that is read: offsets fit into 32 bits. -/
def maxInputLength : Nat := 0xffffffff

structure SyntaxError where
  rule : Label
  start : Position
  stop : Position
  excerpt : String
  found : Option Char
  highlight : Bool
deriving DecidableEq

inductive ParseError where
  | mismatch (e : SyntaxError)
  | nestingTooDeep (limit : Nat) (position : Position)
  | inputTooLong (length : Nat)
deriving DecidableEq

namespace SyntaxError

def foundText : Option Char → String
  | some c => Text.quotedChar c
  | none => "end of input"

def message (e : SyntaxError) : String :=
  "parse error near " ++ e.rule.shown e.highlight ++
    " (" ++ e.start.describe ++ " - " ++ e.stop.describe ++ "): " ++
    Text.quoted e.excerpt.toList ++ ", unexpected " ++ foundText e.found

end SyntaxError

namespace ParseError

def message : ParseError → String
  | mismatch e => e.message
  | nestingTooDeep limit position =>
    "parse error: where clauses nested deeper than " ++ toString limit ++ " at " ++
      position.describe
  | inputTooLong length =>
    "parse error: input of " ++ toString length ++ " characters is too long"

end ParseError
end TableLang
