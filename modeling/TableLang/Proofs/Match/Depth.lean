import TableLang.Match.Run

/-! The bound on the nesting of clauses has no influence but that it ends a reading: unless a clause
is nested too deep, a reading ends as it does under any greater bound, in the very same state. -/
namespace TableLang.Match
open Grammar

inductive Persists : Outcome → Outcome → Prop where
  | same {o : Outcome} : Persists o o
  | tooDeep {offset : Nat} {o : Outcome} : Persists (.tooDeep offset) o

variable {step step' : State → Outcome}

theorem attempt_persists {s : State} (h : Persists (step s) (step' s)) :
    Persists (attempt step s) (attempt step' s) := by
  unfold attempt
  generalize step s = o at h
  generalize step' s = o' at h
  cases h with
  | same => exact .same
  | tooDeep => exact .tooDeep

theorem within_persists (p : Production) {s : State}
    (h : Persists (step (s.enter p)) (step' (s.enter p))) :
    Persists (within p step s) (within p step' s) := by
  unfold within
  generalize step (s.enter p) = o at h
  generalize step' (s.enter p) = o' at h
  cases h with
  | same => exact .same
  | tooDeep => exact .tooDeep

theorem capturing_persists {s : State} (h : Persists (step s) (step' s)) :
    Persists (capturing step s) (capturing step' s) := by
  have hattempt := attempt_persists h
  unfold capturing
  generalize attempt step s = o at hattempt
  generalize attempt step' s = o' at hattempt
  cases hattempt with
  | same => exact .same
  | tooDeep => exact .tooDeep

theorem repeating_persists (ahead : List Char → Bool)
    (h : ∀ s, Persists (step s) (step' s)) (s : State) :
    Persists (repeating ahead step s) (repeating ahead step' s) := by
  induction hn : s.rest.length using Nat.strongRecOn generalizing s with
  | ind n ih =>
    rw [repeating, repeating]
    by_cases hahead : ahead s.rest = true
    · rw [if_pos hahead, if_pos hahead]
      have hattempt := attempt_persists (h s)
      generalize attempt step s = o at hattempt
      generalize attempt step' s = o' at hattempt
      cases hattempt with
      | tooDeep => exact .tooDeep
      | same =>
        cases o with
        | matched t =>
          by_cases hless : t.rest.length < s.rest.length
          · simp only [hless, if_true]
            exact ih t.rest.length (hn ▸ hless) t rfl
          · simp only [hless, if_false]
            exact .same
        | failed t => exact .same
        | tooDeep offset => exact .tooDeep
    · rw [if_neg hahead, if_neg hahead]
      exact .same

/-- A reading persists if the readings of nested clauses do. -/
theorem read_persists {nested nested' : State → Outcome}
    (h : ∀ s, Persists (nested s) (nested' s)) (e : Expr) (s : State) :
    Persists (e.read nested s) (e.read nested' s) := by
  induction e generalizing s with
  | empty => exact .same
  | one accepts => exact .same
  | run accepts => exact .same
  | finish => exact .same
  | mark a => exact .same
  | seq e f ihe ihf =>
    have he := ihe s
    rw [Expr.read, Expr.read]
    generalize e.read nested s = o at he
    generalize e.read nested' s = o' at he
    cases he with
    | tooDeep => exact .tooDeep
    | same =>
      cases o with
      | matched t => exact ihf t
      | failed t => exact .same
      | tooDeep offset => exact .tooDeep
  | alt e f ihe ihf =>
    have he := attempt_persists (ihe s)
    rw [Expr.read, Expr.read]
    generalize attempt (e.read nested) s = o at he
    generalize attempt (e.read nested') s = o' at he
    cases he with
    | tooDeep => exact .tooDeep
    | same =>
      cases o with
      | matched t => exact .same
      | failed t => exact attempt_persists (ihf t)
      | tooDeep offset => exact .tooDeep
  | opt e ih =>
    have he := attempt_persists (ih s)
    rw [Expr.read, Expr.read]
    generalize attempt (e.read nested) s = o at he
    generalize attempt (e.read nested') s = o' at he
    cases he with
    | same => exact .same
    | tooDeep => exact .tooDeep
  | many ahead e ih => exact repeating_persists ahead ih s
  | ifNext c e f ihe ihf =>
    rw [Expr.read, Expr.read]
    split
    · exact ihe s
    · exact ihf s
  | named p e ih => exact within_persists p (ih (s.enter p))
  | capture e ih => exact capturing_persists (ih s)
  | clause => exact h s

theorem readClause_persists {depth depth' : Nat} (h : depth ≤ depth') (s : State) :
    Persists (readClause depth s) (readClause depth' s) := by
  induction depth generalizing depth' s with
  | zero => exact .tooDeep
  | succ depth ih =>
    obtain ⟨greater, rfl⟩ := Nat.exists_eq_add_of_le' (Nat.le_of_add_left_le h)
    have hle : depth ≤ greater := Nat.le_of_succ_le_succ h
    exact read_persists (fun t => ih hle t) whereClause s

/-- Unless a clause of a query is nested too deep, a greater bound makes no difference. -/
theorem readQuery_persists (settings : Settings) {depth : Nat} (h : settings.maxDepth ≤ depth)
    (input : List Char) :
    Persists (readQuery settings input) (readQuery { settings with maxDepth := depth } input) :=
  read_persists (readClause_persists h) query _

end TableLang.Match
