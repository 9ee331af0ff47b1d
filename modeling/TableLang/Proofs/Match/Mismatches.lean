import Mathlib.Data.List.MinMax
import TableLang.Proofs.Diagnosis

/-! The mismatches met in a reading, in the order in which they are met, those in parts that are
undone among them. Main statement: what a syntax error reports is the first of them among those with
the greatest offset. -/
namespace TableLang.Match
open Grammar

def mismatchesOfMany (ahead : List Char → Bool) (step : State → Outcome)
    (met : State → List Mismatch) (s : State) : List Mismatch :=
  if ahead s.rest then
    met s ++
      match attempt step s with
      | .matched t =>
        if t.rest.length < s.rest.length then mismatchesOfMany ahead step met t else []
      | _ => []
  else []
termination_by s.rest.length

end TableLang.Match

namespace TableLang.Grammar.Expr
open Match

/-- The mismatches met when an expression is read: one for each single character, and each end of
the input, that is expected and not found. Those met in nested clauses are given by `met`. -/
def mismatches (nested : State → Outcome) (met : State → List Mismatch) :
    Expr → State → List Mismatch
  | one accepts, s => if s.rest.head?.any accepts then [] else [s.mismatch]
  | finish, s => if s.rest = [] then [] else [s.mismatch]
  | seq e f, s =>
    e.mismatches nested met s ++
      match e.read nested s with
      | .matched t => f.mismatches nested met t
      | _ => []
  | alt e f, s =>
    e.mismatches nested met s ++
      match attempt (e.read nested) s with
      | .failed t => f.mismatches nested met t
      | _ => []
  | opt e, s => e.mismatches nested met s
  | many ahead e, s => mismatchesOfMany ahead (e.read nested) (e.mismatches nested met) s
  | ifNext c e f, s =>
    if s.rest.head? = some c then e.mismatches nested met s else f.mismatches nested met s
  | named p e, s => e.mismatches nested met (s.enter p)
  | capture e, s => e.mismatches nested met s
  | clause, s => met s
  | _, _ => []

end TableLang.Grammar.Expr

namespace TableLang.Match
open Grammar

def clauseMismatches : Nat → State → List Mismatch
  | 0, _ => []
  | depth + 1, s => whereClause.mismatches (readClause depth) (clauseMismatches depth) s

def further : Option Mismatch → Mismatch → Option Mismatch :=
  List.argAux fun m kept => kept.stop < m.stop

/-- How a reading from `s` ends that has met the given mismatches: it has kept the first of the
furthest ones, that of `s` taken as the first of all. -/
def Outcome.Keeps (s : State) (met : List Mismatch) : Outcome → Prop
  | matched t => t.furthest = met.foldl further s.furthest
  | failed t => t.furthest = met.foldl further s.furthest
  | tooDeep _ => True

theorem note_furthest (s : State) : s.note.furthest = further s.furthest s.mismatch := by
  unfold State.note further List.argAux
  cases hs : s.furthest with
  | none => rfl
  | some m =>
    by_cases hlt : m.stop < s.pos
    · simp only [stop_mismatch, hlt, if_true]
    · simp only [stop_mismatch, hlt, if_false, hs]

section Steps
variable {step : State → Outcome} {met more : List Mismatch} {s t : State}

/-- Mismatches met after others have been kept are kept besides them. -/
theorem Outcome.Keeps.after {o : Outcome} (ht : t.furthest = met.foldl further s.furthest)
    (h : o.Keeps t more) : o.Keeps s (met ++ more) := by
  cases o with
  | matched u =>
    rw [Keeps, List.foldl_append, ← ht]
    exact h
  | failed u =>
    rw [Keeps, List.foldl_append, ← ht]
    exact h
  | tooDeep offset => trivial

theorem keeps_attempt (h : (step s).Keeps s met) : (attempt step s).Keeps s met := by
  unfold attempt
  generalize step s = o at h
  cases o with
  | matched t => exact h
  | failed t => exact h
  | tooDeep offset => trivial

theorem keeps_within {p : Production} (h : (step (s.enter p)).Keeps (s.enter p) met) :
    (within p step s).Keeps s met := by
  unfold within
  generalize step (s.enter p) = o at h
  cases o with
  | matched t => exact h
  | failed t => exact h
  | tooDeep offset => trivial

theorem keeps_capturing (h : (attempt step s).Keeps s met) : (capturing step s).Keeps s met := by
  unfold capturing
  generalize attempt step s = o at h
  cases o with
  | matched t => exact h
  | failed t => exact h
  | tooDeep offset => trivial

theorem keeps_repeating {met : State → List Mismatch} (ahead : List Char → Bool)
    (hstep : ∀ s, (step s).Keeps s (met s)) (s : State) :
    (repeating ahead step s).Keeps s (mismatchesOfMany ahead step met s) := by
  induction hlength : s.rest.length using Nat.strongRecOn generalizing s with
  | ind k ih =>
    rw [repeating, mismatchesOfMany]
    by_cases hahead : ahead s.rest = true
    · rw [if_pos hahead, if_pos hahead]
      have hattempt := keeps_attempt (hstep s)
      generalize attempt step s = o at hattempt
      cases o with
      | matched t =>
        by_cases hless : t.rest.length < s.rest.length
        · simp only [hless, if_true]
          exact .after hattempt (ih t.rest.length (hlength ▸ hless) t rfl)
        · simp only [hless, if_false, List.append_nil]
          exact hattempt
      | failed t =>
        rw [List.append_nil]
        exact hattempt
      | tooDeep offset => trivial
    · rw [if_neg hahead, if_neg hahead]
      rfl

end Steps

section Expressions
variable {nested : State → Outcome} {met : State → List Mismatch}

/-- A reading keeps the first of the furthest mismatches met, if that is so of nested clauses. -/
theorem read_keeps (hnested : ∀ s, (nested s).Keeps s (met s)) (e : Expr) (s : State) :
    (e.read nested s).Keeps s (e.mismatches nested met s) := by
  induction e generalizing s with
  | empty => rfl
  | one accepts =>
    rw [Expr.read, Expr.mismatches, State.readOne]
    cases hrest : s.rest with
    | nil => exact note_furthest s
    | cons c cs =>
      by_cases hc : accepts c = true
      · simp only [List.head?_cons, Option.any_some, hc, if_true]
        rfl
      · simp only [List.head?_cons, Option.any_some, hc]
        exact note_furthest s
  | run accepts => rfl
  | finish =>
    rw [Expr.read, Expr.mismatches, State.readEnd]
    cases hrest : s.rest with
    | nil => rfl
    | cons c cs => exact note_furthest s
  | mark a => rfl
  | seq e f ihe ihf =>
    have he := ihe s
    rw [Expr.read, Expr.mismatches]
    generalize e.read nested s = o at he
    cases o with
    | matched t => exact .after he (ihf t)
    | failed t =>
      rw [List.append_nil]
      exact he
    | tooDeep offset => trivial
  | alt e f ihe ihf =>
    have he := keeps_attempt (ihe s)
    rw [Expr.read, Expr.mismatches]
    generalize attempt (e.read nested) s = o at he
    cases o with
    | matched t =>
      rw [List.append_nil]
      exact he
    | failed t => exact .after he (keeps_attempt (ihf t))
    | tooDeep offset => trivial
  | opt e ih =>
    have he := keeps_attempt (ih s)
    rw [Expr.read, Expr.mismatches]
    generalize attempt (e.read nested) s = o at he
    cases o with
    | matched t => exact he
    | failed t => exact he
    | tooDeep offset => trivial
  | many ahead e ih => exact keeps_repeating ahead ih s
  | ifNext c e f ihe ihf =>
    rw [Expr.read, Expr.mismatches]
    split
    · exact ihe s
    · exact ihf s
  | named p e ih => exact keeps_within (ih (s.enter p))
  | capture e ih => exact keeps_capturing (keeps_attempt (ih s))
  | clause => exact hnested s

theorem readClause_keeps (depth : Nat) (s : State) :
    (readClause depth s).Keeps s (clauseMismatches depth s) := by
  induction depth generalizing s with
  | zero => trivial
  | succ depth ih => exact read_keeps ih whereClause s

end Expressions

end TableLang.Match

namespace TableLang
open Match

end TableLang
