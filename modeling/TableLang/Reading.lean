import TableLang.Draft.Script
import TableLang.Match.Run
import TableLang.Query.Compile

/-! From text to tokens, drafts and queries. -/
namespace TableLang

inductive QueryError where
  | parse (e : ParseError)
  | compile (e : CompileError)
  | fault (f : Fault)
deriving DecidableEq

namespace QueryError

def message : QueryError → String
  | parse e => e.message
  | compile e => e.message
  | fault f => f.message

def causes : QueryError → List String
  | parse e => [e.message]
  | compile e => e.causes
  | fault f => [f.message]

def isParseError : QueryError → Bool
  | parse _ => true
  | _ => false

end QueryError

def tokenize (settings : Settings) (source : String) : Except ParseError (List Token) :=
  Match.tokensOf settings source.toList

def parse (settings : Settings) (source : String) : Except QueryError Draft :=
  match tokenize settings source with
  | .error e => .error (.parse e)
  | .ok tokens =>
    match Draft.replay {} tokens source.toList with
    | .error f => .error (.fault f)
    | .ok d => .ok d

def parseQuery (settings : Settings) (source : String) : Except QueryError Query :=
  match parse settings source with
  | .error e => .error e
  | .ok d =>
    match d.compile with
    | .error e => .error (.compile e)
    | .ok q => .ok q

end TableLang
