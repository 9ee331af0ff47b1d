import TableLang.Proofs.Match.Calls
import TableLang.Proofs.Match.Mismatches
import TableLang.Proofs.Match.Visits

/-! Going back. Main statement: a production, a captured text or an attempt that fails leaves the
reading as it was before, but for the mismatch kept; one that matches only adds to it. And whatever
state a reading goes through, the spans of its tokens are apart or one in the other, inner ones
first. -/
namespace TableLang.Grammar

def reading : Production → Expr
  | .query => query
  | .select => select
  | .selectKey => selectKey
  | .limit => limit
  | .whereSection => whereSection
  | .whereClause => .clause
  | .groupClause c => groupClause c
  | .predicateClause => predicateClause
  | .predicateName => predicateName
  | .predicateValue => predicateValue
  | .predicateRowKey => predicateRowKey
  | .predicateKey => predicateKey
  | .predicateLiteral => predicateLiteral
  | .positiveInteger => positiveInteger
  | .key => key
  | .escape => escape
  | .requiredSpacing => requiredSpacing
  | .spacing => spacing

end TableLang.Grammar

namespace TableLang.Match
open Grammar

def State.KeepsFurthest (s t : State) : Prop :=
  ∀ m, s.furthest = some m → ∃ m', t.furthest = some m' ∧ m.stop ≤ m'.stop

structure State.BackAt (s t : State) : Prop where
  rest : t.rest = s.rest
  pos : t.pos = s.pos
  tokens : t.tokens.toList = s.tokens.toList
  active : t.active = s.active
  openClauses : t.openClauses = s.openClauses
  furthest : s.KeepsFurthest t

structure State.OnFrom (s t : State) : Prop where
  pos : s.pos ≤ t.pos
  tokens : s.tokens.toList <+: t.tokens.toList
  active : t.active = s.active
  openClauses : t.openClauses = s.openClauses
  furthest : s.KeepsFurthest t

def Outcome.DoneOrUndone (s : State) : Outcome → Prop
  | matched t => s.OnFrom t
  | failed t => s.BackAt t
  | tooDeep _ => True

section Furthest
variable {s t : State} {met : List Mismatch}

theorem exists_of_foldl_further (met : List Mismatch) (m : Mismatch) :
    ∃ m', met.foldl further (some m) = some m' ∧ m.stop ≤ m'.stop := by
  induction met generalizing m with
  | nil => exact ⟨m, rfl, Nat.le_refl _⟩
  | cons k met ih =>
    by_cases hlt : m.stop < k.stop
    · obtain ⟨m', hm', hle⟩ := ih k
      refine ⟨m', ?_, Nat.le_trans (Nat.le_of_lt hlt) hle⟩
      simpa [further, List.argAux, hlt] using hm'
    · obtain ⟨m', hm', hle⟩ := ih m
      refine ⟨m', ?_, hle⟩
      simpa [further, List.argAux, hlt] using hm'

theorem keepsFurthest_of_foldl (h : t.furthest = met.foldl further s.furthest) :
    s.KeepsFurthest t := by
  intro m hm
  rw [h, hm]
  exact exists_of_foldl_further met m

theorem doneOrUndone_of_settles {o : Outcome} {p : Parse} (h : Settles s o p)
    (hkeeps : o.Keeps s met) : o.DoneOrUndone s := by
  cases h with
  | matched h =>
    refine ⟨?_, ?_, h.active, openClauses_eq h.active, keepsFurthest_of_foldl hkeeps⟩
    · rw [h.pos]
      exact Nat.le_add_right ..
    · rw [h.tokens]
      exact List.prefix_append ..
  | failed h =>
    refine ⟨h.rest.symm, h.pos, ?_, h.active, openClauses_eq h.active,
      keepsFurthest_of_foldl hkeeps⟩
    rw [h.tokens, Derivation.tokensAll, List.append_nil]
  | tooDeep h => trivial

end Furthest

theorem exists_settles_reading (depth : Nat) (p : Production) (s : State) :
    ∃ q, Settles s ((reading p).read (readClause depth) s) q := by
  have hnamed : ∀ (d : Nat) (p : Production) (e : Expr),
      ∃ q, Settles s ((Expr.named p e).read (readClause d) s) q :=
    fun d p e => ⟨_, within_settles p (read_agrees (readClause_agrees d) e (s.enter p))⟩
  cases p with
  | whereClause =>
    -- Only a clause is read with one clause fewer allowed inside, or not at all.
    cases depth with
    | zero => exact ⟨.tooDeep s.rest, .tooDeep rfl⟩
    | succ depth => exact hnamed depth .whereClause clauseBody
  | _ => exact hnamed depth _ _

section Steps
variable (depth : Nat) (s : State)

theorem reading_doneOrUndone (p : Production) :
    ((reading p).read (readClause depth) s).DoneOrUndone s := by
  obtain ⟨q, hq⟩ := exists_settles_reading depth p s
  exact doneOrUndone_of_settles hq (read_keeps (readClause_keeps depth) _ s)

theorem capturing_doneOrUndone (e : Expr) :
    (capturing (e.read (readClause depth)) s).DoneOrUndone s :=
  doneOrUndone_of_settles (capturing_settles (read_agrees (readClause_agrees depth) e s))
    (keeps_capturing (keeps_attempt (read_keeps (readClause_keeps depth) e s)))

theorem attempt_doneOrUndone (e : Expr) :
    (attempt (e.read (readClause depth)) s).DoneOrUndone s :=
  doneOrUndone_of_settles (attempt_settles (read_agrees (readClause_agrees depth) e s))
    (keeps_attempt (read_keeps (readClause_keeps depth) e s))

end Steps

def Spread (t u : Token) : Prop := t.stop ≤ u.stop ∧ (t.stop ≤ u.start ∨ u.start ≤ t.start)

structure LeftBetween (lo hi : Nat) (l : List Token) : Prop where
  le : lo ≤ hi
  bounds : ∀ t ∈ l, lo ≤ t.start ∧ t.start ≤ t.stop ∧ t.stop ≤ hi
  spread : l.Pairwise Spread

namespace LeftBetween
variable {lo mid hi : Nat} {l l' : List Token}

theorem nil (h : lo ≤ hi) : LeftBetween lo hi [] :=
  ⟨h, by simp, List.Pairwise.nil⟩

theorem append (h : LeftBetween lo mid l) (h' : LeftBetween mid hi l') :
    LeftBetween lo hi (l ++ l') where
  le := Nat.le_trans h.le h'.le
  bounds t ht := by
    obtain ht | ht := List.mem_append.1 ht
    · obtain ⟨hstart, hspan, hstop⟩ := h.bounds t ht
      exact ⟨hstart, hspan, Nat.le_trans hstop h'.le⟩
    · obtain ⟨hstart, hspan, hstop⟩ := h'.bounds t ht
      exact ⟨Nat.le_trans h.le hstart, hspan, hstop⟩
  spread := by
    refine List.pairwise_append.2 ⟨h.spread, h'.spread, fun t ht u hu => ?_⟩
    obtain ⟨-, -, hstop⟩ := h.bounds t ht
    obtain ⟨hstart, hspan, -⟩ := h'.bounds u hu
    exact ⟨by omega, .inl (by omega)⟩

/-- A token over all of what was read encloses the tokens left there. -/
theorem enclose (h : LeftBetween lo hi l) (label : Label) :
    LeftBetween lo hi (l ++ [⟨label, lo, hi⟩]) where
  le := h.le
  bounds t ht := by
    obtain ht | ht := List.mem_append.1 ht
    · exact h.bounds t ht
    · rw [List.mem_singleton.1 ht]
      exact ⟨Nat.le_refl _, h.le, Nat.le_refl _⟩
  spread := by
    refine List.pairwise_append.2 ⟨h.spread, List.pairwise_singleton .., fun t ht u hu => ?_⟩
    obtain ⟨hstart, -, hstop⟩ := h.bounds t ht
    rw [List.mem_singleton.1 hu]
    exact ⟨hstop, .inr hstart⟩

end LeftBetween

def State.Grown (s t : State) : Prop :=
  ∃ l, t.tokens.toList = s.tokens.toList ++ l ∧ LeftBetween s.pos t.pos l

def Outcome.Grown (s : State) : Outcome → Prop
  | matched t => s.Grown t
  | failed t => s.Grown t
  | tooDeep _ => True

namespace State.Grown
variable {s t u : State}

/-- Going on changes no token. -/
theorem moved (htokens : t.tokens.toList = s.tokens.toList) (hpos : s.pos ≤ t.pos) : s.Grown t :=
  ⟨[], by rw [htokens, List.append_nil], .nil hpos⟩

theorem refl (s : State) : s.Grown s := moved rfl (Nat.le_refl _)

theorem trans (h : s.Grown t) (h' : t.Grown u) : s.Grown u := by
  obtain ⟨l, htokens, hl⟩ := h
  obtain ⟨l', htokens', hl'⟩ := h'
  exact ⟨l ++ l', by rw [htokens', htokens, List.append_assoc], hl.append hl'⟩

theorem note (s : State) : s.Grown s.note :=
  moved (by rw [note_tokens]) (Nat.le_of_eq (note_pos s).symm)

theorem emit (h : s.Grown t) (label : Label) : s.Grown (t.emit label s.pos) := by
  obtain ⟨l, htokens, hl⟩ := h
  refine ⟨l ++ [⟨label, s.pos, t.pos⟩], ?_, ?_⟩
  · rw [State.emit, TokenBuffer.toList_push, htokens, List.append_assoc]
  · exact hl.enclose label

theorem rewind (h : s.Grown t) : s.Grown (t.rewind s.rest s.pos s.tokens.length) := by
  obtain ⟨l, htokens, -⟩ := h
  refine moved ?_ (Nat.le_refl _)
  rw [State.rewind, TokenBuffer.toList_truncate, htokens, ← TokenBuffer.length_toList,
    List.take_left]

end State.Grown

section GrownSteps
variable {step : State → Outcome} {s t : State}

theorem Outcome.Grown.after {o : Outcome} (h : s.Grown t) (h' : o.Grown t) : o.Grown s := by
  cases o with
  | matched u => exact h.trans h'
  | failed u => exact h.trans h'
  | tooDeep offset => trivial

theorem grown_attempt (h : (step s).Grown s) : (attempt step s).Grown s := by
  unfold attempt
  generalize step s = o at h
  cases o with
  | matched t => exact h
  | failed t => exact State.Grown.rewind h
  | tooDeep offset => trivial

theorem grown_within {p : Production} (h : (step (s.enter p)).Grown (s.enter p)) :
    (within p step s).Grown s := by
  unfold within
  generalize step (s.enter p) = o at h
  cases o with
  | matched t =>
    have hexit : s.Grown t.exit := h
    exact hexit.emit _
  | failed t =>
    have hexit : s.Grown t.exit := h
    exact hexit.rewind
  | tooDeep offset => trivial

theorem grown_capturing (h : (attempt step s).Grown s) : (capturing step s).Grown s := by
  unfold capturing
  generalize attempt step s = o at h
  cases o with
  | matched t => exact State.Grown.emit h _
  | failed t => exact h
  | tooDeep offset => trivial

theorem grown_repeating (ahead : List Char → Bool) (hstep : ∀ s, (step s).Grown s) (s : State) :
    (repeating ahead step s).Grown s := by
  induction hlength : s.rest.length using Nat.strongRecOn generalizing s with
  | ind k ih =>
    rw [repeating]
    by_cases hahead : ahead s.rest = true
    · rw [if_pos hahead]
      have hattempt := grown_attempt (hstep s)
      generalize attempt step s = o at hattempt
      cases o with
      | matched t =>
        by_cases hless : t.rest.length < s.rest.length
        · simp only [hless, if_true]
          exact .after hattempt (ih t.rest.length (hlength ▸ hless) t rfl)
        · simp only [hless, if_false]
          exact hattempt
      | failed t => exact hattempt
      | tooDeep offset => trivial
    · rw [if_neg hahead]
      exact .refl s

end GrownSteps

section Expressions
variable {nested : State → Outcome}

/-- A reading only adds tokens, also one that fails, if that is so of nested clauses. -/
theorem read_grown (hnested : ∀ s, (nested s).Grown s) (e : Expr) (s : State) :
    (e.read nested s).Grown s := by
  induction e generalizing s with
  | empty => exact .refl s
  | one accepts =>
    rw [Expr.read, State.readOne]
    split
    · split
      · exact .moved rfl (Nat.le_succ _)
      · exact .note s
    · exact .note s
  | run accepts => exact .moved rfl (Nat.le_add_right ..)
  | finish =>
    rw [Expr.read, State.readEnd]
    split
    · exact .refl s
    · exact .note s
  | mark a => exact (State.Grown.refl s).emit _
  | seq e f ihe ihf =>
    have he := ihe s
    rw [Expr.read]
    generalize e.read nested s = o at he
    cases o with
    | matched t => exact .after he (ihf t)
    | failed t => exact he
    | tooDeep offset => trivial
  | alt e f ihe ihf =>
    have he := grown_attempt (ihe s)
    rw [Expr.read]
    generalize attempt (e.read nested) s = o at he
    cases o with
    | matched t => exact he
    | failed t => exact .after he (grown_attempt (ihf t))
    | tooDeep offset => trivial
  | opt e ih =>
    have he := grown_attempt (ih s)
    rw [Expr.read]
    generalize attempt (e.read nested) s = o at he
    cases o with
    | matched t => exact he
    | failed t => exact he
    | tooDeep offset => trivial
  | many ahead e ih => exact grown_repeating ahead ih s
  | ifNext c e f ihe ihf =>
    rw [Expr.read]
    split
    · exact ihe s
    · exact ihf s
  | named p e ih => exact grown_within (ih (s.enter p))
  | capture e ih => exact grown_capturing (grown_attempt (ih s))
  | clause => exact hnested s

theorem readClause_grown (depth : Nat) (s : State) : (readClause depth s).Grown s := by
  induction depth generalizing s with
  | zero => trivial
  | succ depth ih => exact read_grown ih whereClause s

variable {depth : Nat} {e : Expr} {s t : State}

theorem grown_of_matched (h : e.read (readClause depth) s = .matched t) : s.Grown t := by
  have hread := read_grown (readClause_grown depth) e s
  rwa [h] at hread

theorem grown_of_failed (h : e.read (readClause depth) s = .failed t) : s.Grown t := by
  have hread := read_grown (readClause_grown depth) e s
  rwa [h] at hread

/-- Whatever state a reading goes through, tokens have only been added. -/
theorem Visits.grown (h : Visits depth e s t) : s.Grown t := by
  induction h with
  | start => exact .refl _
  | matched h => exact grown_of_matched h
  | failed h => exact grown_of_failed h
  | @run depth accepts s t c cs hrest hc h ih =>
    have hone : s.Grown { s with rest := cs, pos := s.pos + 1 } := .moved rfl (Nat.le_succ _)
    exact hone.trans ih
  | seqFirst h ih => exact ih
  | seqSecond hfirst h ih => exact (grown_of_matched hfirst).trans ih
  | altFirst h ih => exact ih
  | @altSecond depth e f s t u hfirst h ih =>
    have hread := grown_attempt (read_grown (readClause_grown depth) e s)
    rw [hfirst] at hread
    exact State.Grown.trans hread ih
  | opt h ih => exact ih
  | manyFirst hahead h ih => exact ih
  | manyLater hahead hfirst hless h ih => exact (grown_of_matched hfirst).trans ih
  | ifNextYes hc h ih => exact ih
  | ifNextNo hc h ih => exact ih
  | named h ih => exact ih
  | capture h ih => exact ih
  | clause h ih => exact ih

end Expressions

/-- The tokens of a state end at its place or before, in the order in which they were left, and the
spans of two of them are apart or one in the other. -/
structure State.InOrder (s : State) : Prop where
  spans : ∀ t ∈ s.tokens.toList, t.start ≤ t.stop ∧ t.stop ≤ s.pos
  stops : s.tokens.toList.Pairwise fun t u => t.stop ≤ u.stop
  nested : s.tokens.toList.Pairwise fun t u => t.stop ≤ u.start ∨ u.start ≤ t.start

theorem State.Grown.inOrder {s t : State} (h : s.Grown t) (hs : s.tokens.toList = []) :
    t.InOrder := by
  obtain ⟨l, htokens, hl⟩ := h
  rw [hs, List.nil_append] at htokens
  refine ⟨fun u hu => ?_, ?_, ?_⟩
  · rw [htokens] at hu
    exact (hl.bounds u hu).2
  · rw [htokens]
    exact hl.spread.imp And.left
  · rw [htokens]
    exact hl.spread.imp And.right

/-- Going back is exact. From whatever state a production is read, a text captured or an expression
tried: where it fails, the place, the tokens and the open productions and clauses are as they were;
where it matches, tokens may have been added and the place is not before. In no case a mismatch is
given up for one less far. The clauses counted at a call are those that are open. And in every state
that a reading goes through, tokens end at its place or before, in the order in which they were
left, and of two tokens the second begins after the first or encloses it. -/
theorem done_or_undone_exactly (settings : Settings) (input : List Char) :
    (∀ (depth : Nat) (s : State),
      (∀ p, ((reading p).read (readClause depth) s).DoneOrUndone s) ∧
      (∀ e, (capturing (Expr.read (readClause depth) e) s).DoneOrUndone s) ∧
      (∀ e, (attempt (Expr.read (readClause depth) e) s).DoneOrUndone s)) ∧
    (∀ c, Made settings input c → c.depth = c.state.openClauses.length) ∧
    (∀ s, Visits settings.maxDepth query (.initial input settings.tokenCapacity) s →
      s.InOrder) := by
  refine ⟨fun depth s => ⟨reading_doneOrUndone depth s, capturing_doneOrUndone depth s,
    attempt_doneOrUndone depth s⟩, fun c hc => hc.counts.depth_eq, fun s hs => ?_⟩
  exact hs.grown.inOrder (TokenBuffer.toList_withCapacity _)

end TableLang.Match
