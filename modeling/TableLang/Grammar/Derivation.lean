import TableLang.Grammar.Rules
import TableLang.Token

/-! The grammar read as a plain context-free grammar: choices are unordered, optional parts and
repetitions may take as much or as little as they like, and nothing looks ahead. A derivation is a
tree whose leaves spell the text and whose nodes are the productions, the captured texts and the
actions. -/
namespace TableLang.Grammar

inductive Derivation where
  | char (c : Char)
  | node (label : Label) (parts : List Derivation)

namespace Derivation

mutual
def text : Derivation → List Char
  | char c => [c]
  | node _ parts => textAll parts

def textAll : List Derivation → List Char
  | [] => []
  | t :: ts => text t ++ textAll ts
end

mutual
/-- The tokens of a derivation whose text begins at offset `start`: one for each node, after those
of its parts. -/
def tokens (start : Nat) : Derivation → List Token
  | char _ => []
  | node label parts =>
    tokensAll start parts ++ [⟨label, start, start + (textAll parts).length⟩]

def tokensAll (start : Nat) : List Derivation → List Token
  | [] => []
  | t :: ts => tokens start t ++ tokensAll (start + (text t).length) ts
end

end Derivation

/-- The relation between an expression and the rows of derivations by it in which at most `depth`
clauses are nested in each other. -/
inductive Derives : Nat → Expr → List Derivation → Prop where
  | empty {depth : Nat} : Derives depth .empty []
  | one {depth : Nat} {accepts : Char → Bool} {c : Char} (h : accepts c = true) :
    Derives depth (.one accepts) [.char c]
  | run {depth : Nat} {accepts : Char → Bool} {cs : List Char} (h : ∀ c ∈ cs, accepts c = true) :
    Derives depth (.run accepts) (cs.map .char)
  | finish {depth : Nat} : Derives depth .finish []
  | mark {depth : Nat} {a : Action} : Derives depth (.mark a) [.node (.action a) []]
  | seq {depth : Nat} {e f : Expr} {ts us : List Derivation} (first : Derives depth e ts)
    (second : Derives depth f us) : Derives depth (.seq e f) (ts ++ us)
  | altFirst {depth : Nat} {e f : Expr} {ts : List Derivation} (h : Derives depth e ts) :
    Derives depth (.alt e f) ts
  | altSecond {depth : Nat} {e f : Expr} {ts : List Derivation} (h : Derives depth f ts) :
    Derives depth (.alt e f) ts
  | optNone {depth : Nat} {e : Expr} : Derives depth (.opt e) []
  | optSome {depth : Nat} {e : Expr} {ts : List Derivation} (h : Derives depth e ts) :
    Derives depth (.opt e) ts
  | manyNone {depth : Nat} {ahead : List Char → Bool} {e : Expr} : Derives depth (.many ahead e) []
  | manyMore {depth : Nat} {ahead : List Char → Bool} {e : Expr} {ts us : List Derivation}
    (first : Derives depth e ts) (later : Derives depth (.many ahead e) us) :
    Derives depth (.many ahead e) (ts ++ us)
  | ifYes {depth : Nat} {c : Char} {e f : Expr} {ts : List Derivation} (h : Derives depth e ts) :
    Derives depth (.ifNext c e f) ts
  | ifNo {depth : Nat} {c : Char} {e f : Expr} {ts : List Derivation} (h : Derives depth f ts) :
    Derives depth (.ifNext c e f) ts
  | named {depth : Nat} {p : Production} {e : Expr} {ts : List Derivation}
    (h : Derives depth e ts) : Derives depth (.named p e) [.node (.production p) ts]
  | capture {depth : Nat} {e : Expr} {ts : List Derivation} (h : Derives depth e ts) :
    Derives depth (.capture e) [.node .text ts]
  | clause {depth : Nat} {ts : List Derivation} (h : Derives depth whereClause ts) :
    Derives (depth + 1) .clause ts

end TableLang.Grammar
