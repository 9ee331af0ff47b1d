import TableLang.Draft.Edit
import TableLang.Text.Quoted
import TableLang.Token
import TableLang.Tree

/-! The nesting of tokens. A token comes after the tokens of its parts, so it takes in the trees
built last, as long as their spans lie within its own. Tokens that cover nothing are left out. -/
namespace TableLang.SyntaxTree

/-- Puts a token on top of the trees built so far, the latest first; `parts` are the trees it has
taken in already. -/
def adopt (t : Token) (parts : List (Tree Token)) : List (Tree Token) → List (Tree Token)
  | [] => [.node t parts]
  | u :: us => if u.label.within t then adopt t (u :: parts) us else .node t parts :: u :: us

def ofTokens (tokens : List Token) : List (Tree Token) :=
  ((tokens.filter fun t => !t.isEmpty).foldl (fun built t => adopt t [] built) []).reverse

def line (highlight : Bool) (input : List Char) (depth : Nat) (t : Token) : Except Fault String :=
  match slice? input t.start t.stop with
  | some cs =>
    .ok (String.ofList (List.replicate depth ' ') ++ t.label.shown highlight ++ " " ++
      Text.quoted cs ++ "\n")
  | none => .error (.badSpan t.start t.stop)

mutual
def print (highlight : Bool) (input : List Char) (depth : Nat) : Tree Token → Except Fault String
  | .node t parts => do
    let first ← line highlight input depth t
    let rest ← printAll highlight input (depth + 1) parts
    .ok (first ++ rest)

def printAll (highlight : Bool) (input : List Char) (depth : Nat) :
    List (Tree Token) → Except Fault String
  | [] => .ok ""
  | t :: ts => do
    let first ← print highlight input depth t
    let rest ← printAll highlight input depth ts
    .ok (first ++ rest)
end

def render (highlight : Bool) (input : List Char) (tokens : List Token) : Except Fault String :=
  printAll highlight input 0 (ofTokens tokens)

end TableLang.SyntaxTree
