import TableLang.Draft.Edit
import TableLang.Token

/-! The edits that the tokens of a query call for. The tokens are gone through once: a text token
becomes the current text, and an action token calls for its edit, with the current text where the
edit takes one. -/
namespace TableLang

namespace Action

def edit (text : String) : Action → Edit
  | chooseSelect => .chooseSelect
  | nameTable => .nameTable text
  | setLimit => .setLimit text
  | openRoot => .openRoot
  | enterClause => .enterClause
  | leaveClause => .leaveClause
  | becomePredicate => .becomePredicate
  | becomeGroup c => .becomeGroup c
  | nameComparison => .nameComparison text
  | useRowKey => .useRowKey
  | addKey => .addKey text
  | addLiteral => .addLiteral text

end Action

structure Script where
  edits : List Edit
  fault : Option Fault
deriving DecidableEq

namespace Script

/-- The script of a list of tokens over `input`, when `text` is the current text. It ends at the
first text token that does not fit the input. -/
def ofTokens (input : List Char) (text : String) : List Token → Script
  | [] => ⟨[], none⟩
  | t :: ts =>
    match t.label with
    | .text =>
      match slice? input t.start t.stop with
      | some cs => ofTokens input (String.ofList cs) ts
      | none => ⟨[], some (.badSpan t.start t.stop)⟩
    | .action a =>
      let later := ofTokens input text ts
      ⟨a.edit text :: later.edits, later.fault⟩
    | _ => ofTokens input text ts

end Script

namespace Draft

def follow (d : Draft) (script : Script) : Except Fault Draft := do
  let e ← d.applyAll script.edits
  match script.fault with
  | none => .ok e
  | some fault => .error fault

def replay (d : Draft) (tokens : List Token) (input : List Char) : Except Fault Draft :=
  d.follow (.ofTokens input "" tokens)

end Draft
end TableLang
