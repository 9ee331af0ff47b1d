import TableLang.Grammar.Rules
import TableLang.Match.State
import TableLang.ParseError

/-! Reading an input by the grammar. Choices try their parts in order, repetitions and optional
parts take what they can, and whatever fails is undone. The nesting of clauses is bounded: a
clause beyond the bound ends the whole reading. -/
namespace TableLang.Match

def attempt (step : State → Outcome) (s : State) : Outcome :=
  let rest := s.rest
  let pos := s.pos
  let kept := s.tokens.length
  match step s with
  | .failed t => .failed (t.rewind rest pos kept)
  | done => done

def within (p : Production) (step : State → Outcome) (s : State) : Outcome :=
  let rest := s.rest
  let pos := s.pos
  let kept := s.tokens.length
  match step (s.enter p) with
  | .matched t => .matched (t.exit.emit (.production p) pos)
  | .failed t => .failed (t.exit.rewind rest pos kept)
  | .tooDeep offset => .tooDeep offset

def capturing (step : State → Outcome) (s : State) : Outcome :=
  let pos := s.pos
  match attempt step s with
  | .matched t => .matched (t.emit .text pos)
  | other => other

/-- Runs a step again and again, each time only where `ahead` accepts what is left of the input,
until it fails or reads nothing. -/
def repeating (ahead : List Char → Bool) (step : State → Outcome) (s : State) : Outcome :=
  let left := s.rest.length
  if ahead s.rest then
    match attempt step s with
    | .matched t => if t.rest.length < left then repeating ahead step t else .matched t
    | .failed t => .matched t
    | .tooDeep offset => .tooDeep offset
  else .matched s
termination_by s.rest.length

end TableLang.Match

namespace TableLang.Grammar.Expr
open Match

def read (nested : State → Outcome) : Expr → State → Outcome
  | empty, s => .matched s
  | one accepts, s => s.readOne accepts
  | run accepts, s => .matched (s.skip accepts)
  | finish, s => s.readEnd
  | mark a, s => .matched (s.emit (.action a) s.pos)
  | seq e f, s =>
    match e.read nested s with
    | .matched t => f.read nested t
    | other => other
  | alt e f, s =>
    match attempt (e.read nested) s with
    | .failed t => attempt (f.read nested) t
    | other => other
  | opt e, s =>
    match attempt (e.read nested) s with
    | .failed t => .matched t
    | other => other
  | many ahead e, s => repeating ahead (e.read nested) s
  | ifNext c e f, s => if s.rest.head? = some c then e.read nested s else f.read nested s
  | named p e, s => within p (e.read nested) s
  | capture e, s => capturing (e.read nested) s
  | clause, s => nested s

end TableLang.Grammar.Expr

namespace TableLang.Match
open Grammar

/-- Reads a clause in which at most `depth` clauses may be nested in each other, itself included. -/
def readClause : Nat → State → Outcome
  | 0, s => .tooDeep s.pos
  | depth + 1, s => whereClause.read (readClause depth) s

def readQuery (settings : Settings) (input : List Char) : Outcome :=
  query.read (readClause settings.maxDepth) (.initial input settings.tokenCapacity)

def report (settings : Settings) (input : List Char) (s : State) : ParseError :=
  -- No reading fails without a mismatch; what stands in for one is never shown.
  let m := s.furthest.getD ⟨.query, 0, 0, input.head?⟩
  let places := Position.ofOffsets input [m.start, m.stop]
  .mismatch {
    rule := .production m.rule
    start := places.getD 0 .start
    stop := places.getD 1 .start
    excerpt := String.ofList ((input.drop m.start).take (m.stop - m.start))
    found := m.found
    highlight := settings.highlight }

def tokensOf (settings : Settings) (input : List Char) : Except ParseError (List Token) :=
  if maxInputLength < input.length then .error (.inputTooLong input.length)
  else match readQuery settings input with
    | .matched s => .ok s.tokens.toList
    | .failed s => .error (report settings input s)
    | .tooDeep offset =>
      .error (.nestingTooDeep settings.maxDepth (Position.ofOffset input offset))

end TableLang.Match
