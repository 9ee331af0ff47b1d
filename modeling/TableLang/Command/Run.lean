import TableLang.Command.Documentation
import TableLang.Command.Invocation
import TableLang.Command.Tutorial

/-! What the program answers to a command line. -/
namespace TableLang.Command

structure Response where
  exitCode : UInt32
  output : String
  errors : String
deriving DecidableEq

namespace Response

def usage : Response := ⟨2, "", "error: invalid arguments\n\nUsage: tq [-v] <COMMAND>\n"⟩

def success (output : String) : Response := ⟨0, output, ""⟩

def failure (e : CommandError) : Response := ⟨1, "", e.message ++ "\n"⟩

end Response

namespace Invocation

def readsInput : Invocation → Bool
  | check none _ _ => true
  | _ => false

def written (pretty : Bool) : CheckResult → String
  | .valid => "Syntax is valid\n"
  | .tree text => text
  | .outline text => text
  | .compiled q => (if pretty then q.toJson.pretty 0 else q.toJson.compact) ++ "\n"

def queryText (query : Option String) (input : ByteArray) : Except CommandError String :=
  match query with
  | some text => .ok text
  | none =>
    match String.fromUTF8? input with
    | some text => .ok text
    | none => .error .invalidInput

def output (input : ByteArray) : Invocation → Except CommandError String
  | version => .ok "tq 0.1.0\n"
  | docs => .ok Documentation.overview
  | onboard => .ok tutorial
  | doc category => do
    let c ← Category.lookup category
    .ok c.text
  | check query options pretty => do
    let text ← queryText query input
    let result ← options.check text
    .ok (written pretty result)

def run (input : ByteArray) (i : Invocation) : Response :=
  match i.output input with
  | .ok text => .success text
  | .error e => .failure e

end Invocation

def respond (args : List String) (ambient : Option String) (input : ByteArray) : Response :=
  match Invocation.ofArgs? args ambient with
  | some i => i.run input
  | none => .usage

end TableLang.Command
