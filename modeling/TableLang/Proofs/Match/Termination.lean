import Mathlib.Data.ENat.Basic
import TableLang.Proofs.Match.Distance
import TableLang.Proofs.Match.Key

/-! Readings end. What a reading does is laid down by rules without any bound on repetitions, and
with or without one on the nesting of clauses. Main statement: by these rules every reading comes to
one end, for whatever it repeats or nests takes it further into the input. -/
namespace TableLang.Match
open Grammar

/-- A reading within `depth` clauses comes to an end. A repetition goes on whenever its step has
matched, even if nothing was read. It ends where the step fails, but there is no rule for that if it
looks ahead: it would find the same place again for ever. Clauses are nested up to `limit`, which
may be infinite. -/
inductive Ends (limit : ℕ∞) : Nat → Expr → State → Outcome → Prop where
  | empty {depth : Nat} {s : State} : Ends limit depth .empty s (.matched s)
  | one {depth : Nat} {accepts : Char → Bool} {s : State} :
    Ends limit depth (.one accepts) s (s.readOne accepts)
  | runOver {depth : Nat} {accepts : Char → Bool} {s : State} (h : Stops accepts s.rest) :
    Ends limit depth (.run accepts) s (.matched s)
  | runOn {depth : Nat} {accepts : Char → Bool} {s : State} {c : Char} {cs : List Char}
    {o : Outcome} (hrest : s.rest = c :: cs) (hc : accepts c = true)
    (h : Ends limit depth (.run accepts) { s with rest := cs, pos := s.pos + 1 } o) :
    Ends limit depth (.run accepts) s o
  | finish {depth : Nat} {s : State} : Ends limit depth .finish s s.readEnd
  | mark {depth : Nat} {a : Action} {s : State} :
    Ends limit depth (.mark a) s (.matched (s.emit (.action a) s.pos))
  | seqOn {depth : Nat} {e f : Expr} {s t : State} {o : Outcome}
    (first : Ends limit depth e s (.matched t)) (second : Ends limit depth f t o) :
    Ends limit depth (.seq e f) s o
  | seqOver {depth : Nat} {e f : Expr} {s : State} {o : Outcome} (first : Ends limit depth e s o)
    (h : ∀ t, o ≠ .matched t) : Ends limit depth (.seq e f) s o
  | altOn {depth : Nat} {e f : Expr} {s t : State} {o : Outcome}
    (first : Ends limit depth e s (.failed t))
    (second : Ends limit depth f (t.rewind s.rest s.pos s.tokens.length) o) :
    Ends limit depth (.alt e f) s
      (attempt (fun _ => o) (t.rewind s.rest s.pos s.tokens.length))
  | altOver {depth : Nat} {e f : Expr} {s : State} {o : Outcome} (first : Ends limit depth e s o)
    (h : ∀ t, o ≠ .failed t) : Ends limit depth (.alt e f) s o
  | optFailed {depth : Nat} {e : Expr} {s t : State} (h : Ends limit depth e s (.failed t)) :
    Ends limit depth (.opt e) s (.matched (t.rewind s.rest s.pos s.tokens.length))
  | optOver {depth : Nat} {e : Expr} {s : State} {o : Outcome} (body : Ends limit depth e s o)
    (h : ∀ t, o ≠ .failed t) : Ends limit depth (.opt e) s o
  | manyOver {depth : Nat} {ahead : List Char → Bool} {e : Expr} {s : State}
    (hahead : ahead s.rest = false) : Ends limit depth (.many ahead e) s (.matched s)
  | manyOn {depth : Nat} {ahead : List Char → Bool} {e : Expr} {s t : State} {o : Outcome}
    (hahead : ahead s.rest = true) (step : Ends limit depth e s (.matched t))
    (later : Ends limit depth (.many ahead e) t o) : Ends limit depth (.many ahead e) s o
  | manyFailed {depth : Nat} {ahead : List Char → Bool} {e : Expr} {s t : State}
    (hahead : ∀ input, ahead input = true) (step : Ends limit depth e s (.failed t)) :
    Ends limit depth (.many ahead e) s (.matched (t.rewind s.rest s.pos s.tokens.length))
  | manyTooDeep {depth : Nat} {ahead : List Char → Bool} {e : Expr} {s : State} {offset : Nat}
    (hahead : ahead s.rest = true) (step : Ends limit depth e s (.tooDeep offset)) :
    Ends limit depth (.many ahead e) s (.tooDeep offset)
  | ifNextYes {depth : Nat} {c : Char} {e f : Expr} {s : State} {o : Outcome}
    (hc : s.rest.head? = some c) (h : Ends limit depth e s o) : Ends limit depth (.ifNext c e f) s o
  | ifNextNo {depth : Nat} {c : Char} {e f : Expr} {s : State} {o : Outcome}
    (hc : s.rest.head? ≠ some c) (h : Ends limit depth f s o) : Ends limit depth (.ifNext c e f) s o
  | named {depth : Nat} {p : Production} {e : Expr} {s : State} {o : Outcome}
    (h : Ends limit depth e (s.enter p) o) :
    Ends limit depth (.named p e) s (within p (fun _ => o) s)
  | capture {depth : Nat} {e : Expr} {s : State} {o : Outcome} (h : Ends limit depth e s o) :
    Ends limit depth (.capture e) s (capturing (fun _ => o) s)
  | clause {depth : Nat} {s : State} {o : Outcome} (hlimit : depth < limit)
    (h : Ends limit (depth + 1) whereClause s o) : Ends limit depth .clause s o
  | tooDeep {depth : Nat} {s : State} (hlimit : limit ≤ depth) :
    Ends limit depth .clause s (.tooDeep s.pos)

/-- A reading comes to one end only. -/
theorem Ends.unique {limit : ℕ∞} {depth : Nat} {e : Expr} {s : State} {o o' : Outcome}
    (h : Ends limit depth e s o) (h' : Ends limit depth e s o') : o' = o := by
  induction h generalizing o' with
  | empty =>
    cases h'
    rfl
  | one =>
    cases h'
    rfl
  | runOver hstops =>
    cases h' with
    | runOver _ => rfl
    | runOn hrest hc _ =>
      rw [hrest, stops_cons, hc] at hstops
      cases hstops
  | runOn hrest hc h ih =>
    cases h' with
    | runOver hstops =>
      rw [hrest, stops_cons, hc] at hstops
      cases hstops
    | runOn hrest' hc' h' =>
      rw [hrest] at hrest'
      obtain ⟨rfl, rfl⟩ := List.cons.inj hrest'
      exact ih h'
  | finish =>
    cases h'
    rfl
  | mark =>
    cases h'
    rfl
  | seqOn first second ihe ihf =>
    cases h' with
    | seqOn first' second' =>
      obtain rfl := Outcome.matched.inj (ihe first')
      exact ihf second'
    | seqOver first' hnot => exact absurd (ihe first') (hnot _)
  | seqOver first hnot ih =>
    cases h' with
    | seqOn first' second' => exact absurd (ih first').symm (hnot _)
    | seqOver first' _ => exact ih first'
  | altOn first second ihe ihf =>
    cases h' with
    | altOn first' second' =>
      obtain rfl := Outcome.failed.inj (ihe first')
      rw [ihf second']
    | altOver first' hnot => exact absurd (ihe first') (hnot _)
  | altOver first hnot ih =>
    cases h' with
    | altOn first' second' => exact absurd (ih first').symm (hnot _)
    | altOver first' _ => exact ih first'
  | optFailed h ih =>
    cases h' with
    | optFailed h' => rw [Outcome.failed.inj (ih h')]
    | optOver h' hnot => exact absurd (ih h') (hnot _)
  | optOver h hnot ih =>
    cases h' with
    | optFailed h' => exact absurd (ih h').symm (hnot _)
    | optOver h' _ => exact ih h'
  | manyOver hahead =>
    cases h' with
    | manyOver _ => rfl
    | manyOn hahead' _ _ => exact absurd (hahead'.symm.trans hahead) (by decide)
    | manyFailed hahead' _ => exact absurd ((hahead' _).symm.trans hahead) (by decide)
    | manyTooDeep hahead' _ => exact absurd (hahead'.symm.trans hahead) (by decide)
  | manyOn hahead step later ihe ihf =>
    cases h' with
    | manyOver hahead' => exact absurd (hahead.symm.trans hahead') (by decide)
    | manyOn _ step' later' =>
      obtain rfl := Outcome.matched.inj (ihe step')
      exact ihf later'
    | manyFailed _ step' => cases ihe step'
    | manyTooDeep _ step' => cases ihe step'
  | manyFailed hahead step ih =>
    cases h' with
    | manyOver hahead' => exact absurd ((hahead _).symm.trans hahead') (by decide)
    | manyOn _ step' _ => cases ih step'
    | manyFailed _ step' => rw [Outcome.failed.inj (ih step')]
    | manyTooDeep _ step' => cases ih step'
  | manyTooDeep hahead step ih =>
    cases h' with
    | manyOver hahead' => exact absurd (hahead.symm.trans hahead') (by decide)
    | manyOn _ step' _ => cases ih step'
    | manyFailed _ step' => cases ih step'
    | manyTooDeep _ step' => exact ih step'
  | ifNextYes hc h ih =>
    cases h' with
    | ifNextYes _ h' => exact ih h'
    | ifNextNo hc' _ => exact absurd hc hc'
  | ifNextNo hc h ih =>
    cases h' with
    | ifNextYes hc' _ => exact absurd hc' hc
    | ifNextNo _ h' => exact ih h'
  | named h ih =>
    cases h' with
    | named h' => rw [ih h']
  | capture h ih =>
    cases h' with
    | capture h' => rw [ih h']
  | clause hlimit h ih =>
    cases h' with
    | clause _ h' => exact ih h'
    | tooDeep hlimit' => exact absurd hlimit (not_lt.2 hlimit')
  | tooDeep hlimit =>
    cases h' with
    | clause hlimit' _ => exact absurd hlimit' (not_lt.2 hlimit)
    | tooDeep _ => rfl

end TableLang.Match

namespace TableLang.Grammar
open Match

/-- True of an expression whose repetitions read something with each step, and of which those that
look ahead do so rightly: where they see a step, it can be read. -/
def Expr.Orderly : Expr → Prop
  | seq e f => e.Orderly ∧ f.Orderly
  | alt e f => e.Orderly ∧ f.Orderly
  | opt e => e.Orderly
  | many ahead e => e.Orderly ∧ 0 < e.least ∧
    ((∀ input, ahead input = true) ∨
      ∀ (depth : Nat) (s : State), ahead s.rest = true →
        ∃ t, e.read (readClause depth) s = .matched t)
  | ifNext _ e f => e.Orderly ∧ f.Orderly
  | named _ e => e.Orderly
  | capture e => e.Orderly
  | _ => True

namespace Expr

@[simp]
theorem orderly_seqAll (es : List Expr) : (seqAll es).Orderly ↔ ∀ e ∈ es, e.Orderly := by
  induction es with
  | nil => simp [seqAll, Orderly]
  | cons e es ih =>
    cases es with
    | nil => simp [seqAll]
    | cons f es => simpa [seqAll, Orderly] using fun _ => ih

@[simp]
theorem orderly_char (c : Char) : (char c).Orderly := trivial

@[simp]
theorem orderly_word (text : String) : (word text).Orderly := by
  simp [word]

theorem orderly_star {e : Expr} (he : e.Orderly) (hleast : 0 < e.least) : e.star.Orderly :=
  ⟨he, hleast, .inl fun _ => rfl⟩

end Expr

@[simp]
theorem spacing_orderly : spacing.Orderly := trivial

@[simp]
theorem requiredSpacing_orderly : requiredSpacing.Orderly := ⟨trivial, trivial⟩

@[simp]
theorem key_orderly : key.Orderly := by
  have hpart : keyPart.Orderly := ⟨⟨trivial, trivial⟩, trivial⟩
  refine ⟨hpart, hpart, by decide, .inr fun depth s h => ?_⟩
  exact (startsKeyPart_iff depth s).1 h

@[simp]
theorem predicateValue_orderly : predicateValue.Orderly := by
  simp [predicateValue, predicateLiteral, predicateRowKey, predicateKey, Expr.Orderly]

@[simp]
theorem predicateClause_orderly : predicateClause.Orderly := by
  have hlater : (Expr.star (.seqAll [.char ',', spacing, predicateValue, spacing])).Orderly :=
    Expr.orderly_star (by simp) (by decide)
  simp [predicateClause, predicateName, Expr.Orderly, hlater]

@[simp]
theorem groupClause_orderly (c : Connective) : (groupClause c).Orderly := by
  have hlater : (Expr.star (.seqAll [.char ',', spacing, .clause, spacing])).Orderly :=
    Expr.orderly_star (by simp [Expr.Orderly]) (by decide)
  simp [groupClause, Expr.Orderly, hlater]

theorem clauseBody_orderly : clauseBody.Orderly := by
  simp [clauseBody, Expr.Orderly]

theorem query_orderly : query.Orderly := by
  simp [query, select, selectKey, whereSection, limit, positiveInteger, Expr.Orderly]

end TableLang.Grammar

namespace TableLang.Match
open Grammar

section Steps
variable {limit : ℕ∞} {opened : Nat} {step : State → Outcome} {s t : State} {offset : Nat}

theorem attempt_of_failed (h : step s = .failed t) :
    attempt step s = .failed (t.rewind s.rest s.pos s.tokens.length) := by
  unfold attempt
  rw [h]

theorem attempt_of_tooDeep (h : step s = .tooDeep offset) : attempt step s = .tooDeep offset := by
  unfold attempt
  rw [h]

theorem within_of_tooDeep {p : Production} (h : step (s.enter p) = .tooDeep offset) :
    within p step s = .tooDeep offset := by
  unfold within
  rw [h]

theorem capturing_of_tooDeep (h : step s = .tooDeep offset) :
    capturing step s = .tooDeep offset := by
  unfold capturing
  rw [attempt_of_tooDeep h]

theorem skip_of_stops {accepts : Char → Bool} (h : Stops accepts s.rest) : s.skip accepts = s := by
  obtain ⟨rest, pos, tokens, active, furthest⟩ := s
  cases rest with
  | nil => rfl
  | cons c cs => simp [State.skip, stops_cons.1 h]

/-- A run of characters is passed over one by one. -/
theorem ends_run (accepts : Char → Bool) (s : State) :
    Ends limit opened (.run accepts) s (.matched (s.skip accepts)) := by
  induction hrest : s.rest generalizing s with
  | nil =>
    have hstops : Stops accepts s.rest := by simp [hrest]
    rw [skip_of_stops hstops]
    exact .runOver hstops
  | cons c cs ih =>
    by_cases hc : accepts c = true
    · have hskip : s.skip accepts = State.skip accepts { s with rest := cs, pos := s.pos + 1 } := by
        simp [State.skip, hrest, hc, Nat.add_assoc, Nat.add_comm 1]
      rw [hskip]
      exact .runOn hrest hc (ih _ rfl)
    · have hstops : Stops accepts s.rest := by simpa [hrest] using hc
      rw [skip_of_stops hstops]
      exact .runOver hstops

end Steps

section Reading
variable {limit : ℕ∞} {opened depth : Nat} {e f : Expr} {s t : State}

theorem rest_lt_of_matched (hleast : 0 < e.least) (h : e.read (readClause depth) s = .matched t) :
    t.rest.length < s.rest.length := by
  obtain ⟨ts, hadvanced, hderives⟩ := exists_derives_of_matched h
  have hle := least_le hderives
  rw [hadvanced.rest, List.length_append]
  omega

/-- A repetition ends as the reading says, if that is so of its step. -/
theorem repeating_ends {Q : Prop} {ahead : List Char → Bool} (he : (Expr.many ahead e).Orderly)
    (hstep : ∀ s, (∀ offset, e.read (readClause depth) s = .tooDeep offset → Q) →
      Ends limit opened e s (e.read (readClause depth) s))
    (s : State)
    (hdeep : ∀ offset, repeating ahead (e.read (readClause depth)) s = .tooDeep offset → Q) :
    Ends limit opened (.many ahead e) s (repeating ahead (e.read (readClause depth)) s) := by
  obtain ⟨-, hleast, hlooks⟩ := he
  -- By induction on what is left of the input: it gets less with each step that matches.
  induction hlength : s.rest.length using Nat.strongRecOn generalizing s with
  | ind k ih =>
    rw [repeating] at hdeep ⊢
    cases hahead : ahead s.rest with
    | false =>
      rw [if_neg (by decide)]
      exact .manyOver hahead
    | true =>
      rw [hahead, if_pos rfl] at hdeep
      rw [if_pos rfl]
      have hone := hstep s
      cases ho : e.read (readClause depth) s with
      | matched t =>
        have hless := rest_lt_of_matched hleast ho
        rw [ho] at hone
        simp only [attempt_eq_matched.2 ho, hless, if_true] at hdeep ⊢
        exact .manyOn hahead (hone fun _ h => by cases h)
          (ih t.rest.length (hlength ▸ hless) t hdeep rfl)
      | failed t =>
        rw [ho] at hone
        simp only [attempt_of_failed ho]
        obtain hall | hright := hlooks
        · exact .manyFailed hall (hone fun _ h => by cases h)
        · -- Where a repetition has looked ahead, its step cannot fail.
          obtain ⟨u, hu⟩ := hright depth s hahead
          rw [ho] at hu
          cases hu
      | tooDeep offset =>
        rw [ho] at hone
        simp only [attempt_of_tooDeep ho] at hdeep ⊢
        exact .manyTooDeep hahead (hone hdeep)

/-- The rules lead to the end that the reading gives, unless that is a clause nested too deep; and
to this too if `Q` holds, of which the same is to be known for nested clauses. -/
theorem read_ends {Q : Prop}
    (hclause : ∀ s, (∀ offset, readClause depth s = .tooDeep offset → Q) →
      Ends limit opened .clause s (readClause depth s))
    (e : Expr) (he : e.Orderly) (s : State)
    (hdeep : ∀ offset, e.read (readClause depth) s = .tooDeep offset → Q) :
    Ends limit opened e s (e.read (readClause depth) s) := by
  induction e generalizing s with
  | empty => exact .empty
  | one accepts => exact .one
  | run accepts => exact ends_run accepts s
  | finish => exact .finish
  | mark a => exact .mark
  | seq e f ihe ihf =>
    have hfirst := ihe he.1 s
    rw [Expr.read] at hdeep ⊢
    cases ho : e.read (readClause depth) s with
    | matched t =>
      rw [ho] at hfirst hdeep
      exact .seqOn (hfirst fun _ h => by cases h) (ihf he.2 t hdeep)
    | failed t =>
      rw [ho] at hfirst
      exact .seqOver (hfirst fun _ h => by cases h) fun _ h => by cases h
    | tooDeep offset =>
      rw [ho] at hfirst hdeep
      exact .seqOver (hfirst hdeep) fun _ h => by cases h
  | alt e f ihe ihf =>
    have hfirst := ihe he.1 s
    rw [Expr.read] at hdeep ⊢
    cases ho : e.read (readClause depth) s with
    | matched t =>
      rw [ho] at hfirst
      simp only [attempt_eq_matched.2 ho]
      exact .altOver (hfirst fun _ h => by cases h) fun _ h => by cases h
    | failed t =>
      rw [ho] at hfirst
      simp only [attempt_of_failed ho] at hdeep ⊢
      refine .altOn (hfirst fun _ h => by cases h) (ihf he.2 _ fun offset h => ?_)
      exact hdeep offset (attempt_of_tooDeep h)
    | tooDeep offset =>
      rw [ho] at hfirst
      simp only [attempt_of_tooDeep ho] at hdeep ⊢
      exact .altOver (hfirst hdeep) fun _ h => by cases h
  | opt e ih =>
    have hbody := ih he s
    rw [Expr.read] at hdeep ⊢
    cases ho : e.read (readClause depth) s with
    | matched t =>
      rw [ho] at hbody
      simp only [attempt_eq_matched.2 ho]
      exact .optOver (hbody fun _ h => by cases h) fun _ h => by cases h
    | failed t =>
      rw [ho] at hbody
      simp only [attempt_of_failed ho]
      exact .optFailed (hbody fun _ h => by cases h)
    | tooDeep offset =>
      rw [ho] at hbody
      simp only [attempt_of_tooDeep ho] at hdeep ⊢
      exact .optOver (hbody hdeep) fun _ h => by cases h
  | many ahead e ih => exact repeating_ends he (ih he.1) s hdeep
  | ifNext c e f ihe ihf =>
    rw [Expr.read] at hdeep ⊢
    by_cases hc : s.rest.head? = some c
    · rw [if_pos hc] at hdeep ⊢
      exact .ifNextYes hc (ihe he.1 s hdeep)
    · rw [if_neg hc] at hdeep ⊢
      exact .ifNextNo hc (ihf he.2 s hdeep)
  | named p e ih =>
    exact .named (ih he (s.enter p) fun offset h => hdeep offset (within_of_tooDeep h))
  | capture e ih => exact .capture (ih he s fun offset h => hdeep offset (capturing_of_tooDeep h))
  | clause => exact hclause s hdeep

theorem readClause_ends (depth opened : Nat) (s : State)
    (hle : ((opened + depth : Nat) : ℕ∞) ≤ limit)
    (hdeep : ∀ offset, readClause depth s = .tooDeep offset → limit = (opened + depth : Nat)) :
    Ends limit opened .clause s (readClause depth s) := by
  induction depth generalizing opened s with
  | zero => exact .tooDeep (Nat.add_zero opened ▸ (hdeep _ rfl).le)
  | succ depth ih =>
    rw [← Nat.add_assoc, Nat.add_right_comm] at hle hdeep
    have hlt : (opened : ℕ∞) < limit := lt_of_lt_of_le (by exact_mod_cast (by omega)) hle
    refine .clause hlt (read_ends (fun t ht => ih (opened + 1) t hle ht) whereClause ?_ s hdeep)
    exact clauseBody_orderly

end Reading

section Query
variable (settings : Settings) {input : List Char}

theorem readQuery_ends (input : List Char) :
    Ends settings.maxDepth 0 query (.initial input settings.tokenCapacity)
      (readQuery settings input) := by
  refine read_ends (fun t ht => ?_) query query_orderly _ fun _ _ => trivial
  exact readClause_ends settings.maxDepth 0 t (by simp) fun offset h => by simp

theorem readQuery_ne_tooDeep (h : input.length < 15 + 3 * settings.maxDepth) (offset : Nat) :
    readQuery settings input ≠ .tooDeep offset := by
  intro hdeep
  have hagrees := readQuery_agrees settings input
  rw [hdeep] at hagrees
  generalize hp : query.parse (parseClause settings.maxDepth) input = p at hagrees
  cases hagrees with
  | tooDeep _ => exact absurd (le_of_parse_query_tooDeep hp) (Nat.not_le.2 h)

/-- A text too short to reach the bound is read as it is without a bound. -/
theorem readQuery_ends_unbounded (h : input.length < 15 + 3 * settings.maxDepth) :
    Ends ⊤ 0 query (.initial input settings.tokenCapacity) (readQuery settings input) := by
  refine read_ends (fun t ht => ?_) query query_orderly _ (readQuery_ne_tooDeep settings h)
  exact readClause_ends settings.maxDepth 0 t le_top fun offset h => (ht offset h).elim

theorem existsUnique_ends (input : List Char) (limit : ℕ∞) :
    ∃! o, Ends limit 0 query (.initial input settings.tokenCapacity) o := by
  obtain ⟨o, ho⟩ : ∃ o, Ends limit 0 query (.initial input settings.tokenCapacity) o := by
    cases limit with
    | top =>
      -- A bound as large as the input is long is as good as none.
      have hshort : input.length < 15 + 3 * input.length := by omega
      exact ⟨_, readQuery_ends_unbounded { settings with maxDepth := input.length } hshort⟩
    | coe depth => exact ⟨_, readQuery_ends { settings with maxDepth := depth } input⟩
  exact ⟨o, ho, fun _ h => ho.unique h⟩

end Query

theorem Part.orderly {nested : State → Outcome} {e f : Expr} {s t : State}
    (h : Part nested e s f t) (he : e.Orderly) : f.Orderly := by
  cases h with
  | seqFirst => exact he.1
  | seqSecond h => exact he.2
  | altFirst => exact he.1
  | altSecond h => exact he.2
  | opt => exact he
  | manyStep hahead => exact he.1
  | manyLater hahead h => exact he
  | ifNextYes h => exact he.1
  | ifNextNo h => exact he.2
  | named => exact he
  | capture => exact he

theorem Made.orderly {settings : Settings} {input : List Char} {c : Call}
    (h : Made settings input c) : c.expr.Orderly := by
  refine Made.induction (P := fun c => c.expr.Orderly) query_orderly (fun c d hmakes hc => ?_) h
  cases hmakes with
  | part h => exact h.orderly hc
  | clause h => exact clauseBody_orderly

structure Advancing (settings : Settings) (input : List Char) : Prop where
  /-- A clause begins three characters after the clause around it, or later. -/
  clauses : ∀ (depth : Nat) (s : State), Made settings input ⟨depth, .clause, s⟩ →
    ∀ f ∈ s.openClauses.head?, f.start + 3 ≤ s.pos
  /-- A step of a repetition that matches reads something; and if the repetition looks ahead, the
  step matches wherever it is begun. -/
  repetitions : ∀ (depth : Nat) (ahead : List Char → Bool) (e : Expr) (s : State),
    Made settings input ⟨depth, .many ahead e, s⟩ → ahead s.rest = true →
      (∀ t, e.read (readClause (settings.maxDepth - depth)) s = .matched t → s.pos < t.pos) ∧
      ((∀ input, ahead input = true) ∨
        ∃ t, e.read (readClause (settings.maxDepth - depth)) s = .matched t)
  inside : ∀ s, Visits settings.maxDepth query (.initial input settings.tokenCapacity) s →
    s.pos ≤ input.length

theorem advancing (settings : Settings) (input : List Char) : Advancing settings input where
  clauses _ _ h := h.clause_pos.2
  repetitions depth ahead e s h hahead := by
    obtain ⟨-, hleast, hlooks⟩ := h.orderly
    refine ⟨fun t ht => ?_, hlooks.imp_right fun hright => hright _ s hahead⟩
    have hpos := pos_add_least_le ht
    omega
  inside s h := (h.inside (inside_initial ..)).pos_le

end TableLang.Match

namespace TableLang
open Grammar Match

/-- Every reading ends, and in one way only, whatever the bound on the nesting, and even without a
bound: for all that it nests or repeats takes it further into the input. A clause within `depth`
others begins at the offset `15 + 3 * depth` or later. So a text is refused for its nesting only if
it is as long as that; and a shorter one is read as it is under any other bound that it is too short
to reach, and without a bound. -/
theorem reading_ends_whatever_the_bound (settings : Settings) (source : String) :
    (∀ limit : ℕ∞,
      ∃! o, Ends limit 0 query (.initial source.toList settings.tokenCapacity) o) ∧
    Ends settings.maxDepth 0 query (.initial source.toList settings.tokenCapacity)
      (readQuery settings source.toList) ∧
    Advancing settings source.toList ∧
    (∀ (depth : Nat) (s : State), Made settings source.toList ⟨depth, .clause, s⟩ →
      15 + 3 * depth ≤ s.pos) ∧
    (∀ limit position, tokenize settings source = .error (.nestingTooDeep limit position) →
      limit = settings.maxDepth ∧ 15 + 3 * limit ≤ source.length) ∧
    (source.length < 15 + 3 * settings.maxDepth →
      Ends ⊤ 0 query (.initial source.toList settings.tokenCapacity)
        (readQuery settings source.toList) ∧
      ∀ depth, source.length < 15 + 3 * depth →
        tokenize { settings with maxDepth := depth } source = tokenize settings source) := by
  refine ⟨existsUnique_ends settings source.toList, readQuery_ends settings source.toList,
    advancing settings source.toList, fun depth s h => h.clause_pos.1, fun limit position h => ?_,
    fun hshort => ⟨readQuery_ends_unbounded settings ?_, fun depth hdepth => ?_⟩⟩
  · obtain ⟨-, rfl, -⟩ := tokenize_eq_nestingTooDeep_iff.1 h
    exact ⟨rfl, le_of_tokenize_nestingTooDeep h⟩
  · rwa [String.length_toList]
  · exact tokenize_of_short settings hshort hdepth

end TableLang
