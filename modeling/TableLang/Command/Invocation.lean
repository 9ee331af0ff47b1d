import TableLang.Command.Check

/-! What a command line asks for. Arguments are words, switches and the bound on nesting; after `--`
every argument is a word. A switch may be given once on each of the two levels, before and after the
name of the command. -/
namespace TableLang.Command

inductive Invocation where
  | version
  | check (query : Option String) (options : CheckOptions) (pretty : Bool)
  | docs
  | doc (category : String)
  | onboard

inductive Switch where
  | verbose
  | version
  | justSyntax
  | tree
  | explain
  | pretty
  | color
deriving DecidableEq

inductive Argument where
  | letter (c : Char)
  | option (name : String) (value : Option String)
  | word (text : String)
  | verbatim (text : String)

namespace Switch

def name : Switch → String
  | verbose => "verbose"
  | version => "version"
  | justSyntax => "syntax-only"
  | tree => "tree"
  | explain => "explain"
  | pretty => "pretty"
  | color => "color"

def letter? : Switch → Option Char
  | verbose => some 'v'
  | version => some 'V'
  | pretty => some 'p'
  | _ => none

end Switch

namespace Argument

def split (arg : String) : List Argument :=
  match arg.toList with
  | '-' :: '-' :: cs =>
    let name := String.ofList (cs.takeWhile (· ≠ '='))
    match cs.dropWhile (· ≠ '=') with
    | [] => [option name none]
    | _ :: value => [option name (some (String.ofList value))]
  | '-' :: c :: cs => (c :: cs).map letter
  | _ => [word arg]

def splitAll : List String → List Argument
  | [] => []
  | arg :: args => if arg = "--" then args.map verbatim else split arg ++ splitAll args

def switch? (allowed : List Switch) : Argument → Option Switch
  | letter c => allowed.find? (·.letter? = some c)
  | option name none => allowed.find? (·.name = name)
  | _ => none

end Argument

structure Gathered where
  switches : List Switch := []
  maxDepth : Option Nat := none
  words : List String := []

namespace Gathered

def addSwitch (g : Gathered) (s : Switch) : Option Gathered :=
  if g.switches.contains s then none else some { g with switches := s :: g.switches }

def addDepth (g : Gathered) (text : String) : Option Gathered :=
  match g.maxDepth, Text.readNumeral text.toList with
  | none, .ok n => some { g with maxDepth := some n }
  | _, _ => none

def depthOption : String := "max-depth"

/-- Gathers arguments. The bound on nesting stands after an equals sign or in the next argument, and
is known where `bounded` is set only. -/
def gather (allowed : List Switch) (bounded : Bool) (g : Gathered) :
    List Argument → Option Gathered
  | [] => some g
  | .word text :: args | .verbatim text :: args =>
    gather allowed bounded { g with words := g.words ++ [text] } args
  | .option name value :: args =>
    if bounded && name = depthOption then
      match value, args with
      | some text, args => do gather allowed bounded (← g.addDepth text) args
      | none, .word text :: args => do gather allowed bounded (← g.addDepth text) args
      | none, _ => none
    else do
      let s ← (Argument.option name value).switch? allowed
      gather allowed bounded (← g.addSwitch s) args
  | .letter c :: args => do
    let s ← (Argument.letter c).switch? allowed
    gather allowed bounded (← g.addSwitch s) args

end Gathered

namespace Invocation

def depthOf (given : Option Nat) (ambient : Option String) : Option (Option Nat) :=
  match given, ambient with
  -- What the environment says is not even looked at where a bound is given.
  | some n, _ => some (some n)
  | none, none => some none
  | none, some text => (Text.readNumeral text.toList).toOption.map some

def ofCheckArgs? (args : List Argument) (ambient : Option String) : Option Invocation := do
  let g ← Gathered.gather [.verbose, .justSyntax, .tree, .explain, .pretty, .color] true {} args
  let has := g.switches.contains
  let maxDepth ← depthOf g.maxDepth ambient
  if has .tree && has .explain then none
  else
    let options : CheckOptions := {
      syntaxOnly := has .justSyntax
      tree := has .tree
      explain := has .explain
      color := has .color
      maxDepth := maxDepth }
    match g.words with
    | [] => some (check none options (has .pretty))
    | [query] => some (check (some query) options (has .pretty))
    | _ => none

def ofCommand? (name : String) (args : List Argument) (ambient : Option String) :
    Option Invocation :=
  if name = "check" then ofCheckArgs? args ambient
  else do
    let g ← Gathered.gather [.verbose] false {} args
    match name, g.words with
    | "docs", [] => some docs
    | "doc", [category] => some (doc category)
    | "onboard", [] => some onboard
    | _, _ => none

def ofArguments? (seen : Gathered) (ambient : Option String) : List Argument → Option Invocation
  | [] => none
  | .word name :: args => ofCommand? name args ambient
  | arg :: args => do
    match ← arg.switch? [.verbose, .version] with
    | .version => some version
    | s => ofArguments? (← seen.addSwitch s) ambient args

/-- What a command line asks for; none if it makes no sense. `ambient` is the bound on nesting in
the environment. -/
def ofArgs? (args : List String) (ambient : Option String) : Option Invocation :=
  ofArguments? {} ambient (Argument.splitAll args)

end Invocation
end TableLang.Command
