import TableLang.Query.Outline
import TableLang.Query.ToJson
import TableLang.Reading
import TableLang.SyntaxTree
import TableLang.Text.Characters

/-! The check of a query: what is asked for, and what comes of it. -/
namespace TableLang.Command

/-- What is asked of a check. Of the forms of output the tree comes before the mere verdict, and the
verdict before the outline. -/
structure CheckOptions where
  syntaxOnly : Bool := false
  tree : Bool := false
  explain : Bool := false
  color : Bool := false
  maxDepth : Option Nat := none

inductive CheckResult where
  | valid
  | tree (text : String)
  | outline (text : String)
  | compiled (query : Query)

inductive CommandError where
  | parse (e : ParseError)
  | compile (e : CompileError)
  | fault (f : Fault)
  | invalidInput
  | noInput
  | unknownCategory (name : String)

namespace CommandError

def message : CommandError → String
  | parse e => e.message
  | compile e => "Compile error: " ++ e.message
  | fault f => f.message
  | invalidInput => "IO error: stream did not contain valid UTF-8"
  | noInput => "No query provided. Pass it as an argument or pipe it to stdin."
  | unknownCategory name =>
    "Unknown category: '" ++ name ++ "'\nRun 'tq docs' to see available categories."

def causes : CommandError → List String
  | parse e => [e.message, e.message]
  | compile e => (compile e).message :: e.causes
  | other => [other.message]

def ofQueryError : QueryError → CommandError
  | .parse e => parse e
  | .compile e => compile e
  | .fault f => fault f

end CommandError

namespace CheckOptions

def settings (o : CheckOptions) : Settings :=
  match o.maxDepth with
  | some depth => { maxDepth := depth, highlight := o.color }
  | none => { highlight := o.color }

def isLineEnd (c : Char) : Bool := c = '\n' || c = '\r'

def check (o : CheckOptions) (query : String) : Except CommandError CheckResult :=
  let input := Text.trimEnd isLineEnd query.toList
  let source := String.ofList input
  if input.all Text.isBlank then .error .noInput
  else if o.tree then
    match tokenize o.settings source with
    | .error e => .error (.parse e)
    | .ok tokens =>
      match SyntaxTree.render o.color input tokens with
      | .error f => .error (.fault f)
      | .ok text => .ok (.tree text)
  else if o.syntaxOnly then
    match tokenize o.settings source with
    | .error e => .error (.parse e)
    | .ok _ => .ok .valid
  else
    match parseQuery o.settings source with
    | .error e => .error (.ofQueryError e)
    | .ok q => .ok (if o.explain then .outline q.outline else .compiled q)

end CheckOptions
end TableLang.Command
