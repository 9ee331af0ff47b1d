import Mathlib.Logic.Relation
import TableLang.Proofs.Match.Foresight

/-! The calls that make up a reading: which expression is read from which state, within how many
clauses. Main statement: the clauses counted at a call are those that the state has open, so that
whatever leaves the open productions as they were leaves the count as it was. -/
namespace TableLang.Match
open Grammar

inductive Part (nested : State → Outcome) : Expr → State → Expr → State → Prop where
  | seqFirst {e f : Expr} {s : State} : Part nested (.seq e f) s e s
  | seqSecond {e f : Expr} {s t : State} (h : e.read nested s = .matched t) :
    Part nested (.seq e f) s f t
  | altFirst {e f : Expr} {s : State} : Part nested (.alt e f) s e s
  | altSecond {e f : Expr} {s t : State} (h : attempt (e.read nested) s = .failed t) :
    Part nested (.alt e f) s f t
  | opt {e : Expr} {s : State} : Part nested (.opt e) s e s
  | manyStep {ahead : List Char → Bool} {e : Expr} {s : State} (hahead : ahead s.rest = true) :
    Part nested (.many ahead e) s e s
  | manyLater {ahead : List Char → Bool} {e : Expr} {s t : State} (hahead : ahead s.rest = true)
    (h : e.read nested s = .matched t) : Part nested (.many ahead e) s (.many ahead e) t
  | ifNextYes {c : Char} {e f : Expr} {s : State} (h : s.rest.head? = some c) :
    Part nested (.ifNext c e f) s e s
  | ifNextNo {c : Char} {e f : Expr} {s : State} (h : s.rest.head? ≠ some c) :
    Part nested (.ifNext c e f) s f s
  | named {p : Production} {e : Expr} {s : State} : Part nested (.named p e) s e (s.enter p)
  | capture {e : Expr} {s : State} : Part nested (.capture e) s e s

structure Call where
  /-- How many clauses are being read. -/
  depth : Nat
  expr : Expr
  state : State

/-- A call makes another one. A clause counts from where its body is read. -/
inductive Makes (maxDepth : Nat) : Call → Call → Prop where
  | part {depth : Nat} {e f : Expr} {s t : State}
    (h : Part (readClause (maxDepth - depth)) e s f t) :
    Makes maxDepth ⟨depth, e, s⟩ ⟨depth, f, t⟩
  | clause {depth : Nat} {s : State} (h : depth < maxDepth) :
    Makes maxDepth ⟨depth, .clause, s⟩ ⟨depth + 1, clauseBody, s.enter .whereClause⟩

def Made (settings : Settings) (input : List Char) : Call → Prop :=
  Relation.ReflTransGen (Makes settings.maxDepth)
    ⟨0, query, .initial input settings.tokenCapacity⟩

/-- What holds of the first call and is handed on by every call holds of all that are made. -/
theorem Made.induction {settings : Settings} {input : List Char} {P : Call → Prop}
    (first : P ⟨0, query, .initial input settings.tokenCapacity⟩)
    (next : ∀ c d, Makes settings.maxDepth c d → P c → P d) {c : Call} (h : Made settings input c) :
    P c := by
  induction h with
  | refl => exact first
  | tail _ hmakes ih => exact next _ _ hmakes ih

def State.openClauses (s : State) : List Frame :=
  s.active.filter (·.rule = .whereClause)

theorem openClauses_enter {p : Production} (hp : p ≠ .whereClause) (s : State) :
    (s.enter p).openClauses = s.openClauses :=
  List.filter_cons_of_neg (by simpa using hp)

theorem openClauses_enter_clause (s : State) :
    (s.enter .whereClause).openClauses = ⟨.whereClause, s.pos⟩ :: s.openClauses :=
  List.filter_cons_of_pos (by simp)

theorem openClauses_eq {s t : State} (h : t.active = s.active) : t.openClauses = s.openClauses := by
  rw [State.openClauses, State.openClauses, h]

section Parts
variable {depth : Nat} {e f : Expr} {s t : State}

theorem exists_derives_of_matched (h : e.read (readClause depth) s = .matched t) :
    ∃ ts, Advanced s t ts ∧ Derives depth e ts := by
  have hagrees := read_agrees (readClause_agrees depth) e s
  rw [h] at hagrees
  generalize hp : e.parse (parseClause depth) s.rest = p at hagrees
  cases hagrees with
  | @matched _ ts ht => exact ⟨ts, ht, parse_derives (parseClause_derives depth) e _ _ _ hp⟩

theorem Part.follows {nested : State → Outcome} (h : Part nested e s f t) (he : e.Follows) :
    f.Follows := by
  cases h with
  | seqFirst => exact he.1
  | seqSecond h => exact he.2
  | altFirst => exact he.1
  | altSecond h => exact he.2
  | opt => exact he
  | manyStep hahead => exact he
  | manyLater hahead h => exact he
  | ifNextYes h => exact he.1
  | ifNextNo h => exact he.2
  | named => exact he.2.2
  | capture => exact he

/-- No clause is opened or closed on the way to a part. -/
theorem Part.openClauses (h : Part (readClause depth) e s f t) (he : e.Follows) :
    t.openClauses = s.openClauses := by
  cases h with
  | seqSecond h =>
    obtain ⟨ts, ht, -⟩ := exists_derives_of_matched h
    exact openClauses_eq ht.active
  | altSecond h => exact openClauses_eq (advanced_of_attempt h).active
  | manyLater hahead h =>
    obtain ⟨ts, ht, -⟩ := exists_derives_of_matched h
    exact openClauses_eq ht.active
  | named => exact openClauses_enter he.1 s
  | _ => rfl

end Parts

structure Call.Counts (c : Call) : Prop where
  follows : c.expr.Follows
  depth_eq : c.depth = c.state.openClauses.length

theorem Call.Counts.next {maxDepth : Nat} {c d : Call} (hc : c.Counts) (h : Makes maxDepth c d) :
    d.Counts := by
  cases h with
  | part h => exact ⟨h.follows hc.follows, by rw [h.openClauses hc.follows]; exact hc.depth_eq⟩
  | clause h =>
    refine ⟨clauseBody_follows.2, ?_⟩
    rw [openClauses_enter_clause]
    exact congrArg (· + 1) hc.depth_eq

theorem Made.counts {settings : Settings} {input : List Char} {c : Call}
    (h : Made settings input c) : c.Counts :=
  Made.induction (P := Call.Counts) ⟨query_follows, rfl⟩ (fun _ _ hmakes hc => hc.next hmakes) h

end TableLang.Match
