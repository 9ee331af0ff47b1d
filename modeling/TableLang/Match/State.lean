import TableLang.Token.Buffer

/-! The state of a reading: where it stands in the input, the tokens left so far, the productions
it is in, and the mismatch that got furthest. Going back moves the place and the tokens, never the
mismatch. -/
namespace TableLang.Match

structure Frame where
  rule : Production
  start : Nat
deriving DecidableEq

structure Mismatch where
  rule : Production
  start : Nat
  stop : Nat
  found : Option Char
deriving DecidableEq

structure State where
  rest : List Char
  pos : Nat
  tokens : TokenBuffer
  /-- The productions being read, innermost first. -/
  active : List Frame
  /-- The first of the mismatches with the greatest offset. -/
  furthest : Option Mismatch

inductive Outcome where
  | matched (s : State)
  | failed (s : State)
  /-- A clause was nested too deep, at this offset; nothing else is tried. -/
  | tooDeep (offset : Nat)

namespace State

def initial (input : List Char) (tokenCapacity : Nat) : State where
  rest := input
  pos := 0
  tokens := .withCapacity tokenCapacity
  active := []
  furthest := none

def mismatch (s : State) : Mismatch :=
  match s.active with
  | [] => ⟨.query, 0, s.pos, s.rest.head?⟩
  | frame :: _ => ⟨frame.rule, frame.start, s.pos, s.rest.head?⟩

/-- Keeps the mismatch at the present place if it is further than the one kept. -/
def note (s : State) : State :=
  match s.furthest with
  | none => { s with furthest := some s.mismatch }
  | some m => if m.stop < s.pos then { s with furthest := some s.mismatch } else s

def reject (s : State) : Outcome := .failed s.note

def readOne (accepts : Char → Bool) (s : State) : Outcome :=
  match s.rest with
  | c :: cs => if accepts c then .matched { s with rest := cs, pos := s.pos + 1 } else s.reject
  | [] => s.reject

def skip (accepts : Char → Bool) (s : State) : State :=
  { s with
    rest := s.rest.dropWhile accepts
    pos := s.pos + (s.rest.takeWhile accepts).length }

def readEnd (s : State) : Outcome :=
  match s.rest with
  | [] => .matched s
  | _ :: _ => s.reject

def emit (label : Label) (start : Nat) (s : State) : State :=
  { s with tokens := s.tokens.push ⟨label, start, s.pos⟩ }

def rewind (rest : List Char) (pos kept : Nat) (s : State) : State :=
  { s with rest := rest, pos := pos, tokens := s.tokens.truncate kept }

def enter (p : Production) (s : State) : State :=
  { s with active := ⟨p, s.pos⟩ :: s.active }

def exit (s : State) : State :=
  { s with active := s.active.tail }

end State
end TableLang.Match
