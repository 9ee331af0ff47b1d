import TableLang.Match.Run

/-! A reading that has got past an offset, or noted a mismatch there or later, does not lose this:
whatever it reads next, either it stays past the offset or it fails with such a mismatch noted. -/
namespace TableLang.Match
open Grammar

def State.Reached (s : State) (n : Nat) : Prop := ∃ m, s.furthest = some m ∧ n ≤ m.stop

/-- The reading has got to offset `n`, or had got there before it went back. -/
def State.Beyond (s : State) (n : Nat) : Prop := n ≤ s.pos ∨ s.Reached n

def Outcome.Passed (n : Nat) : Outcome → Prop
  | matched t => t.Beyond n
  | failed t => t.Reached n
  | tooDeep _ => True

@[simp]
theorem note_rest (s : State) : s.note.rest = s.rest := by
  unfold State.note
  split
  · rfl
  · split <;> rfl

@[simp]
theorem note_pos (s : State) : s.note.pos = s.pos := by
  unfold State.note
  split
  · rfl
  · split <;> rfl

theorem stop_mismatch (s : State) : s.mismatch.stop = s.pos := by
  unfold State.mismatch
  split <;> rfl

variable {n : Nat}

theorem reached_note {s : State} (h : s.Beyond n) : s.note.Reached n := by
  unfold State.note
  cases hs : s.furthest with
  | none =>
    obtain h | ⟨m, hm, -⟩ := h
    · exact ⟨s.mismatch, rfl, by rwa [stop_mismatch]⟩
    · rw [hs] at hm
      cases hm
  | some m =>
    by_cases hlt : m.stop < s.pos
    · simp only [hlt, if_true]
      refine ⟨s.mismatch, rfl, ?_⟩
      rw [stop_mismatch]
      obtain h | ⟨m', hm', hle⟩ := h
      · exact h
      · rw [hs, Option.some.injEq] at hm'
        subst hm'
        omega
    · simp only [hlt, if_false]
      refine ⟨m, hs, ?_⟩
      obtain h | ⟨m', hm', hle⟩ := h
      · omega
      · rw [hs, Option.some.injEq] at hm'
        subst hm'
        exact hle

section Steps
variable {step : State → Outcome} {s : State}

theorem passed_attempt (h : (step s).Passed n) : (attempt step s).Passed n := by
  unfold attempt
  generalize step s = o at h
  cases o with
  | matched t => exact h
  | failed t => exact h
  | tooDeep offset => trivial

theorem passed_within {p : Production} (h : (step (s.enter p)).Passed n) :
    (within p step s).Passed n := by
  unfold within
  generalize step (s.enter p) = o at h
  cases o with
  | matched t => exact h
  | failed t => exact h
  | tooDeep offset => trivial

theorem passed_capturing (h : (attempt step s).Passed n) : (capturing step s).Passed n := by
  unfold capturing
  generalize attempt step s = o at h
  cases o with
  | matched t => exact h
  | failed t => exact h
  | tooDeep offset => trivial

/-- A repetition whose first step is past the offset is past it, if every later repetition is. -/
theorem passed_repeating_step {ahead : List Char → Bool} (hahead : ahead s.rest = true)
    (h : (attempt step s).Passed n)
    (hmore : ∀ t, t.rest.length < s.rest.length → t.Beyond n →
      (repeating ahead step t).Passed n) :
    (repeating ahead step s).Passed n := by
  rw [repeating, if_pos hahead]
  generalize attempt step s = o at h
  cases o with
  | matched t =>
    by_cases hless : t.rest.length < s.rest.length
    · simp only [hless, if_true]
      exact hmore t hless h
    · simp only [hless, if_false]
      exact h
  | failed t => exact .inr h
  | tooDeep offset => trivial

theorem passed_repeating (ahead : List Char → Bool) (hstep : ∀ s, s.Beyond n → (step s).Passed n)
    (s : State) (h : s.Beyond n) : (repeating ahead step s).Passed n := by
  induction hlength : s.rest.length using Nat.strongRecOn generalizing s with
  | ind k ih =>
    by_cases hahead : ahead s.rest = true
    · refine passed_repeating_step hahead (passed_attempt (hstep s h)) fun t hless ht => ?_
      exact ih t.rest.length (hlength ▸ hless) t ht rfl
    · rw [repeating, if_neg hahead]
      exact h

end Steps

section Expressions
variable {nested : State → Outcome} {e f : Expr} {s : State}

theorem passed_seq (he : (e.read nested s).Passed n)
    (hf : ∀ t, t.Beyond n → (f.read nested t).Passed n) :
    ((Expr.seq e f).read nested s).Passed n := by
  rw [Expr.read]
  generalize e.read nested s = o at he
  cases o with
  | matched t => exact hf t he
  | failed t => exact he
  | tooDeep offset => trivial

theorem passed_alt (he : (attempt (e.read nested) s).Passed n)
    (hf : ∀ t, t.Beyond n → (f.read nested t).Passed n) :
    ((Expr.alt e f).read nested s).Passed n := by
  rw [Expr.read]
  generalize attempt (e.read nested) s = o at he
  cases o with
  | matched t => exact he
  | failed t => exact passed_attempt (hf t (.inr he))
  | tooDeep offset => trivial

theorem passed_opt (he : (attempt (e.read nested) s).Passed n) :
    ((Expr.opt e).read nested s).Passed n := by
  rw [Expr.read]
  generalize attempt (e.read nested) s = o at he
  cases o with
  | matched t => exact he
  | failed t => exact .inr he
  | tooDeep offset => trivial

/-- A reading that begins beyond an offset ends past it, if that is so of nested clauses. -/
theorem read_passed (hnested : ∀ s, s.Beyond n → (nested s).Passed n) (e : Expr) (s : State)
    (h : s.Beyond n) : (e.read nested s).Passed n := by
  induction e generalizing s with
  | empty => exact h
  | one accepts =>
    rw [Expr.read, State.readOne]
    split
    · split
      · exact h.imp_left (Nat.le_trans · (Nat.le_succ _))
      · exact reached_note h
    · exact reached_note h
  | run accepts => exact h.imp_left (Nat.le_trans · (Nat.le_add_right ..))
  | finish =>
    rw [Expr.read, State.readEnd]
    split
    · exact h
    · exact reached_note h
  | mark a => exact h
  | seq e f ihe ihf => exact passed_seq (ihe s h) ihf
  | alt e f ihe ihf => exact passed_alt (passed_attempt (ihe s h)) ihf
  | opt e ih => exact passed_opt (passed_attempt (ih s h))
  | many ahead e ih => exact passed_repeating ahead ih s h
  | ifNext c e f ihe ihf =>
    rw [Expr.read]
    split
    · exact ihe s h
    · exact ihf s h
  | named p e ih => exact passed_within (ih (s.enter p) h)
  | capture e ih => exact passed_capturing (passed_attempt (ih s h))
  | clause => exact hnested s h

theorem readClause_passed (depth : Nat) (s : State) (h : s.Beyond n) :
    (readClause depth s).Passed n := by
  induction depth generalizing s with
  | zero => trivial
  | succ depth ih => exact read_passed ih whereClause s h

/-- A query that is not read leaves a mismatch. -/
theorem exists_furthest {settings : Settings} {input : List Char} {s : State}
    (h : readQuery settings input = .failed s) : ∃ m, s.furthest = some m := by
  have hpassed := read_passed (readClause_passed settings.maxDepth) query
    (.initial input settings.tokenCapacity) (.inl (Nat.zero_le _))
  change (readQuery settings input).Passed 0 at hpassed
  rw [h] at hpassed
  obtain ⟨m, hm, -⟩ := hpassed
  exact ⟨m, hm⟩

end Expressions
end TableLang.Match
