import TableLang.Proofs.Match.Progress

/-! The states that a reading goes through, also in parts of it that fail and are undone. Main
statement: in all of them every offset lies within the input, so that offsets fit into 32 bits if
the length of the input does, and so does the offset of the next character wherever there is one. -/
namespace TableLang.Match
open Grammar

/-- Reading by an expression from one state goes through another one. The number is that of clauses
that may be nested in each other. A run of characters is passed over one by one. -/
inductive Visits : Nat → Expr → State → State → Prop where
  | start {depth : Nat} {e : Expr} {s : State} : Visits depth e s s
  | matched {depth : Nat} {e : Expr} {s t : State}
    (h : e.read (readClause depth) s = .matched t) : Visits depth e s t
  | failed {depth : Nat} {e : Expr} {s t : State}
    (h : e.read (readClause depth) s = .failed t) : Visits depth e s t
  | run {depth : Nat} {accepts : Char → Bool} {s t : State} {c : Char} {cs : List Char}
    (hrest : s.rest = c :: cs) (hc : accepts c = true)
    (h : Visits depth (.run accepts) { s with rest := cs, pos := s.pos + 1 } t) :
    Visits depth (.run accepts) s t
  | seqFirst {depth : Nat} {e f : Expr} {s t : State} (h : Visits depth e s t) :
    Visits depth (.seq e f) s t
  | seqSecond {depth : Nat} {e f : Expr} {s t u : State}
    (hfirst : e.read (readClause depth) s = .matched u) (h : Visits depth f u t) :
    Visits depth (.seq e f) s t
  | altFirst {depth : Nat} {e f : Expr} {s t : State} (h : Visits depth e s t) :
    Visits depth (.alt e f) s t
  | altSecond {depth : Nat} {e f : Expr} {s t u : State}
    (hfirst : attempt (e.read (readClause depth)) s = .failed u) (h : Visits depth f u t) :
    Visits depth (.alt e f) s t
  | opt {depth : Nat} {e : Expr} {s t : State} (h : Visits depth e s t) : Visits depth (.opt e) s t
  | manyFirst {depth : Nat} {ahead : List Char → Bool} {e : Expr} {s t : State}
    (hahead : ahead s.rest = true) (h : Visits depth e s t) : Visits depth (.many ahead e) s t
  | manyLater {depth : Nat} {ahead : List Char → Bool} {e : Expr} {s t u : State}
    (hahead : ahead s.rest = true) (hfirst : e.read (readClause depth) s = .matched u)
    (hless : u.rest.length < s.rest.length) (h : Visits depth (.many ahead e) u t) :
    Visits depth (.many ahead e) s t
  | ifNextYes {depth : Nat} {c : Char} {e f : Expr} {s t : State} (hc : s.rest.head? = some c)
    (h : Visits depth e s t) : Visits depth (.ifNext c e f) s t
  | ifNextNo {depth : Nat} {c : Char} {e f : Expr} {s t : State} (hc : s.rest.head? ≠ some c)
    (h : Visits depth f s t) : Visits depth (.ifNext c e f) s t
  | named {depth : Nat} {p : Production} {e : Expr} {s t : State}
    (h : Visits depth e (s.enter p) t) : Visits depth (.named p e) s t
  | capture {depth : Nat} {e : Expr} {s t : State} (h : Visits depth e s t) :
    Visits depth (.capture e) s t
  | clause {depth : Nat} {s t : State} (h : Visits depth whereClause s t) :
    Visits (depth + 1) .clause s t

structure State.Inside (n : Nat) (s : State) : Prop where
  pos_add_rest : s.pos + s.rest.length = n
  tokens_le : ∀ t ∈ s.tokens.toList, t.start ≤ n ∧ t.stop ≤ n
  active_le : ∀ f ∈ s.active, f.start ≤ n
  furthest_le : ∀ m, s.furthest = some m → m.start ≤ n ∧ m.stop ≤ n

def Outcome.Inside (n : Nat) : Outcome → Prop
  | matched t => t.Inside n
  | failed t => t.Inside n
  | tooDeep offset => offset ≤ n

section Transitions
variable {n : Nat} {s t : State}

theorem State.Inside.pos_le (h : s.Inside n) : s.pos ≤ n := by
  have hsum := h.pos_add_rest
  omega

theorem inside_initial (input : List Char) (capacity : Nat) :
    (State.initial input capacity).Inside input.length where
  pos_add_rest := Nat.zero_add _
  tokens_le := by simp [State.initial]
  active_le := by simp [State.initial]
  furthest_le := by simp [State.initial]

/-- Going on within the input changes the place only. -/
theorem State.Inside.moved (h : s.Inside n) {rest : List Char} {pos : Nat}
    (hsum : pos + rest.length = s.pos + s.rest.length) :
    State.Inside n { s with rest := rest, pos := pos } :=
  ⟨hsum.trans h.pos_add_rest, h.tokens_le, h.active_le, h.furthest_le⟩

theorem State.Inside.mismatch (h : s.Inside n) : s.mismatch.start ≤ n ∧ s.mismatch.stop ≤ n := by
  rw [stop_mismatch]
  refine ⟨?_, h.pos_le⟩
  unfold State.mismatch
  cases hactive : s.active with
  | nil => exact Nat.zero_le _
  | cons f _ => exact h.active_le f (hactive ▸ List.mem_cons_self ..)

theorem State.Inside.note (h : s.Inside n) : s.note.Inside n := by
  have hkept : State.Inside n { s with furthest := some s.mismatch } := by
    refine ⟨h.pos_add_rest, h.tokens_le, h.active_le, fun m hm => ?_⟩
    obtain rfl := Option.some.inj hm
    exact h.mismatch
  unfold State.note
  split
  · exact hkept
  · split
    · exact hkept
    · exact h

theorem State.Inside.emit (h : t.Inside n) (label : Label) {start : Nat} (hstart : start ≤ n) :
    (t.emit label start).Inside n := by
  refine ⟨h.pos_add_rest, fun x hx => ?_, h.active_le, h.furthest_le⟩
  rw [State.emit, TokenBuffer.toList_push, List.mem_append, List.mem_singleton] at hx
  obtain hx | rfl := hx
  · exact h.tokens_le x hx
  · exact ⟨hstart, h.pos_le⟩

/-- Going back takes the place of the earlier state and drops tokens of the later one. -/
theorem State.Inside.rewind (h : t.Inside n) (hs : s.Inside n) (kept : Nat) :
    (t.rewind s.rest s.pos kept).Inside n := by
  refine ⟨hs.pos_add_rest, fun x hx => ?_, h.active_le, h.furthest_le⟩
  rw [State.rewind, TokenBuffer.toList_truncate] at hx
  exact h.tokens_le x (List.mem_of_mem_take hx)

theorem State.Inside.enter (h : s.Inside n) (p : Production) : (s.enter p).Inside n := by
  refine ⟨h.pos_add_rest, h.tokens_le, fun f hf => ?_, h.furthest_le⟩
  obtain rfl | hf := List.mem_cons.1 hf
  · exact h.pos_le
  · exact h.active_le f hf

theorem State.Inside.exit (h : s.Inside n) : s.exit.Inside n :=
  ⟨h.pos_add_rest, h.tokens_le, fun f hf => h.active_le f (List.mem_of_mem_tail hf), h.furthest_le⟩

end Transitions

section Steps
variable {n : Nat} {step : State → Outcome} {s : State}

theorem inside_attempt (hs : s.Inside n) (h : (step s).Inside n) : (attempt step s).Inside n := by
  unfold attempt
  generalize step s = o at h
  cases o with
  | matched t => exact h
  | failed t => exact State.Inside.rewind h hs _
  | tooDeep offset => exact h

theorem inside_within {p : Production} (hs : s.Inside n) (h : (step (s.enter p)).Inside n) :
    (within p step s).Inside n := by
  unfold within
  generalize step (s.enter p) = o at h
  cases o with
  | matched t => exact (State.Inside.exit h).emit _ hs.pos_le
  | failed t => exact (State.Inside.exit h).rewind hs _
  | tooDeep offset => exact h

theorem inside_capturing (hs : s.Inside n) (h : (attempt step s).Inside n) :
    (capturing step s).Inside n := by
  unfold capturing
  generalize attempt step s = o at h
  cases o with
  | matched t => exact State.Inside.emit h _ hs.pos_le
  | failed t => exact h
  | tooDeep offset => exact h

theorem inside_repeating (ahead : List Char → Bool)
    (hstep : ∀ s, s.Inside n → (step s).Inside n) (hs : s.Inside n) :
    (repeating ahead step s).Inside n := by
  induction hlength : s.rest.length using Nat.strongRecOn generalizing s with
  | ind k ih =>
    rw [repeating]
    by_cases hahead : ahead s.rest = true
    · rw [if_pos hahead]
      have hattempt := inside_attempt hs (hstep s hs)
      generalize attempt step s = o at hattempt
      cases o with
      | matched t =>
        by_cases hless : t.rest.length < s.rest.length
        · simp only [hless, if_true]
          exact ih t.rest.length (hlength ▸ hless) hattempt rfl
        · simp only [hless, if_false]
          exact hattempt
      | failed t => exact hattempt
      | tooDeep offset => exact hattempt
    · rw [if_neg hahead]
      exact hs

end Steps

section Expressions
variable {n : Nat} {nested : State → Outcome}

/-- A reading that begins inside the input ends inside it, if that is so of nested clauses. -/
theorem read_inside (hnested : ∀ s, s.Inside n → (nested s).Inside n) (e : Expr) (s : State)
    (hs : s.Inside n) : (e.read nested s).Inside n := by
  induction e generalizing s with
  | empty => exact hs
  | one accepts =>
    rw [Expr.read, State.readOne]
    split
    case h_1 c cs hrest =>
      split
      · exact hs.moved (by simp [hrest, Nat.add_assoc, Nat.add_comm 1])
      · exact hs.note
    case h_2 => exact hs.note
  | run accepts =>
    refine hs.moved ?_
    have hlength := congrArg List.length
      (List.takeWhile_append_dropWhile (p := accepts) (l := s.rest))
    rw [List.length_append] at hlength
    omega
  | finish =>
    rw [Expr.read, State.readEnd]
    split
    · exact hs
    · exact hs.note
  | mark a => exact hs.emit _ hs.pos_le
  | seq e f ihe ihf =>
    have he := ihe s hs
    rw [Expr.read]
    generalize e.read nested s = o at he
    cases o with
    | matched t => exact ihf t he
    | failed t => exact he
    | tooDeep offset => exact he
  | alt e f ihe ihf =>
    have he := inside_attempt hs (ihe s hs)
    rw [Expr.read]
    generalize attempt (e.read nested) s = o at he
    cases o with
    | matched t => exact he
    | failed t => exact inside_attempt he (ihf t he)
    | tooDeep offset => exact he
  | opt e ih =>
    have he := inside_attempt hs (ih s hs)
    rw [Expr.read]
    generalize attempt (e.read nested) s = o at he
    cases o with
    | matched t => exact he
    | failed t => exact he
    | tooDeep offset => exact he
  | many ahead e ih => exact inside_repeating ahead ih hs
  | ifNext c e f ihe ihf =>
    rw [Expr.read]
    split
    · exact ihe s hs
    · exact ihf s hs
  | named p e ih => exact inside_within hs (ih (s.enter p) (hs.enter p))
  | capture e ih => exact inside_capturing hs (inside_attempt hs (ih s hs))
  | clause => exact hnested s hs

theorem readClause_inside (depth : Nat) (s : State) (hs : s.Inside n) :
    (readClause depth s).Inside n := by
  induction depth generalizing s with
  | zero => exact hs.pos_le
  | succ depth ih => exact read_inside ih whereClause s hs

variable {depth : Nat} {e : Expr} {s t : State}

theorem inside_of_matched (hs : s.Inside n) (h : e.read (readClause depth) s = .matched t) :
    t.Inside n := by
  have hread := read_inside (readClause_inside depth) e s hs
  rwa [h] at hread

theorem inside_of_failed (hs : s.Inside n) (h : e.read (readClause depth) s = .failed t) :
    t.Inside n := by
  have hread := read_inside (readClause_inside depth) e s hs
  rwa [h] at hread

/-- A reading that begins inside the input never leaves it. -/
theorem Visits.inside (h : Visits depth e s t) (hs : s.Inside n) : t.Inside n := by
  induction h with
  | start => exact hs
  | matched h => exact inside_of_matched hs h
  | failed h => exact inside_of_failed hs h
  | run hrest hc h ih => exact ih (hs.moved (by simp [hrest, Nat.add_assoc, Nat.add_comm 1]))
  | seqFirst h ih => exact ih hs
  | seqSecond hfirst h ih => exact ih (inside_of_matched hs hfirst)
  | altFirst h ih => exact ih hs
  | @altSecond depth e f s t u hfirst h ih =>
    have hread := inside_attempt hs (read_inside (readClause_inside depth) e s hs)
    rw [hfirst] at hread
    exact ih hread
  | opt h ih => exact ih hs
  | manyFirst hahead h ih => exact ih hs
  | manyLater hahead hfirst hless h ih => exact ih (inside_of_matched hs hfirst)
  | ifNextYes hc h ih => exact ih hs
  | ifNextNo hc h ih => exact ih hs
  | named h ih => exact ih (hs.enter _)
  | capture h ih => exact ih hs
  | clause h ih => exact ih hs

end Expressions
end TableLang.Match
