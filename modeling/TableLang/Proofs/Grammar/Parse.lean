import TableLang.Grammar.Derivation
import TableLang.Match.Run

/-! Reading without bookkeeping: what is kept of a reading are the derivations it finds and what is
left of the input, not tokens, offsets or mismatches. Main statements: a reading and this plainer
one always agree, and the tokens of a reading are those of the derivations; what the plainer one
finds are derivations by the grammar. -/
namespace TableLang.Grammar

inductive Parse where
  | done (ts : List Derivation) (rest : List Char)
  | fail
  /-- A clause was nested too deep; this was left of the input there. -/
  | tooDeep (rest : List Char)

namespace Parse

def prepend (ts : List Derivation) : Parse → Parse
  | done us rest => done (ts ++ us) rest
  | fail => fail
  | tooDeep rest => tooDeep rest

def andThen (p : Parse) (next : List Char → Parse) : Parse :=
  match p with
  | done ts rest => (next rest).prepend ts
  | fail => fail
  | tooDeep rest => tooDeep rest

def orElse (p other : Parse) : Parse :=
  match p with
  | fail => other
  | p => p

def wrap (label : Label) : Parse → Parse
  | done ts rest => done [.node label ts] rest
  | fail => fail
  | tooDeep rest => tooDeep rest

def repeated (ahead : List Char → Bool) (step : List Char → Parse) (input : List Char) : Parse :=
  if ahead input then
    match step input with
    | done ts rest =>
      if rest.length < input.length then (repeated ahead step rest).prepend ts else done ts rest
    | fail => done [] input
    | tooDeep rest => tooDeep rest
  else done [] input
termination_by input.length

@[simp]
theorem prepend_nil (p : Parse) : p.prepend [] = p := by
  cases p <;> rfl

end Parse

def Expr.parse (nested : List Char → Parse) : Expr → List Char → Parse
  | empty, input => .done [] input
  | one accepts, input =>
    match input with
    | c :: rest => if accepts c then .done [.char c] rest else .fail
    | [] => .fail
  | run accepts, input => .done ((input.takeWhile accepts).map .char) (input.dropWhile accepts)
  | finish, input => if input = [] then .done [] [] else .fail
  | mark a, input => .done [.node (.action a) []] input
  | seq e f, input => (e.parse nested input).andThen (f.parse nested)
  | alt e f, input => (e.parse nested input).orElse (f.parse nested input)
  | opt e, input => (e.parse nested input).orElse (.done [] input)
  | many ahead e, input => Parse.repeated ahead (e.parse nested) input
  | ifNext c e f, input =>
    if input.head? = some c then e.parse nested input else f.parse nested input
  | named p e, input => (e.parse nested input).wrap (.production p)
  | capture e, input => (e.parse nested input).wrap .text
  | clause, input => nested input

def parseClause : Nat → List Char → Parse
  | 0, input => .tooDeep input
  | depth + 1, input => whereClause.parse (parseClause depth) input

end TableLang.Grammar

namespace TableLang.Match
open Grammar Grammar.Derivation

/-- The state `t` is where the state `s` gets by reading the derivations `ts`, up to the mismatch
noted and the spare slots for tokens. -/
structure Advanced (s t : State) (ts : List Derivation) : Prop where
  rest : s.rest = textAll ts ++ t.rest
  pos : t.pos = s.pos + (textAll ts).length
  tokens : t.tokens.toList = s.tokens.toList ++ tokensAll s.pos ts
  active : t.active = s.active

/-- A step from `s` ends as the plainer reading says. A step that fails may leave tokens behind the
ones it began with; they are dropped where the failure is dealt with. -/
inductive Agrees (s : State) : Outcome → Parse → Prop where
  | matched {t : State} {ts : List Derivation} (h : Advanced s t ts) :
    Agrees s (.matched t) (.done ts t.rest)
  | failed {t : State} (tokens : s.tokens.toList <+: t.tokens.toList)
    (active : t.active = s.active) : Agrees s (.failed t) .fail
  | tooDeep {offset : Nat} {rest : List Char} (h : offset + rest.length = s.pos + s.rest.length) :
    Agrees s (.tooDeep offset) (.tooDeep rest)

end TableLang.Match

namespace TableLang.Grammar.Derivation

theorem textAll_append (ts us : List Derivation) :
    textAll (ts ++ us) = textAll ts ++ textAll us := by
  induction ts with
  | nil => rfl
  | cons t ts ih => simp [textAll, ih]

theorem tokensAll_append (start : Nat) (ts us : List Derivation) :
    tokensAll start (ts ++ us) =
      tokensAll start ts ++ tokensAll (start + (textAll ts).length) us := by
  induction ts generalizing start with
  | nil => rfl
  | cons t ts ih => simp [textAll, tokensAll, ih, Nat.add_assoc]

@[simp]
theorem textAll_chars (cs : List Char) : textAll (cs.map char) = cs := by
  induction cs with
  | nil => rfl
  | cons c cs ih => simp [textAll, text, ih]

@[simp]
theorem tokensAll_chars (start : Nat) (cs : List Char) : tokensAll start (cs.map char) = [] := by
  induction cs generalizing start with
  | nil => rfl
  | cons c cs ih => simp [tokensAll, tokens, ih]

end TableLang.Grammar.Derivation

namespace TableLang.Match
open Grammar Grammar.Derivation

theorem Advanced.refl (s : State) : Advanced s s [] :=
  ⟨rfl, rfl, by simp [tokensAll], rfl⟩

theorem Advanced.trans {s t u : State} {ts us : List Derivation} (h : Advanced s t ts)
    (h' : Advanced t u us) : Advanced s u (ts ++ us) where
  rest := by rw [h.rest, h'.rest, textAll_append, List.append_assoc]
  pos := by rw [h'.pos, h.pos, textAll_append, List.length_append, Nat.add_assoc]
  tokens := by rw [h'.tokens, h.tokens, h.pos, tokensAll_append, List.append_assoc]
  active := h'.active.trans h.active

/-- What follows on derivations already read agrees with the plainer reading that goes on from
them. -/
theorem Agrees.after {s t : State} {ts : List Derivation} {o : Outcome} {p : Parse}
    (h : Advanced s t ts) (h' : Agrees t o p) : Agrees s o (p.prepend ts) := by
  cases h' with
  | matched ht => exact .matched (h.trans ht)
  | failed tokens active =>
    refine .failed (List.IsPrefix.trans ?_ tokens) (active.trans h.active)
    rw [h.tokens]
    exact List.prefix_append ..
  | tooDeep hd =>
    refine .tooDeep ?_
    rw [hd, h.pos, h.rest, List.length_append, Nat.add_assoc]

/-- A step that fails is undone: only the mismatch noted and spare slots may have changed. -/
theorem advanced_rewind {s t : State} (tokens : s.tokens.toList <+: t.tokens.toList)
    (active : t.active = s.active) :
    Advanced s (t.rewind s.rest s.pos s.tokens.length) [] where
  rest := rfl
  pos := rfl
  tokens := by
    rw [State.rewind, TokenBuffer.toList_truncate, ← TokenBuffer.length_toList,
      ← List.prefix_iff_eq_take.1 tokens, tokensAll, List.append_nil]
  active := active

@[simp]
theorem note_tokens (s : State) : s.note.tokens = s.tokens := by
  unfold State.note
  split
  · rfl
  · split <;> rfl

@[simp]
theorem note_active (s : State) : s.note.active = s.active := by
  unfold State.note
  split
  · rfl
  · split <;> rfl

theorem agrees_reject (s : State) : Agrees s s.reject .fail :=
  .failed (by simp) (note_active s)

theorem agrees_readOne (accepts : Char → Bool) (nested : List Char → Parse) (s : State) :
    Agrees s (s.readOne accepts) ((Expr.one accepts).parse nested s.rest) := by
  unfold State.readOne Expr.parse
  cases hs : s.rest with
  | nil => exact agrees_reject s
  | cons c rest =>
    by_cases hc : accepts c = true
    · simp only [hc, if_true]
      exact .matched ⟨by simp [hs, textAll, text], by simp [textAll, text],
        by simp [tokensAll, tokens], rfl⟩
    · simp only [hc]
      exact agrees_reject s

theorem advanced_skip (accepts : Char → Bool) (s : State) :
    Advanced s (s.skip accepts) ((s.rest.takeWhile accepts).map .char) where
  rest := by simp [State.skip]
  pos := by simp [State.skip]
  tokens := by simp [State.skip]
  active := rfl

theorem agrees_readEnd (nested : List Char → Parse) (s : State) :
    Agrees s s.readEnd (Expr.finish.parse nested s.rest) := by
  unfold State.readEnd Expr.parse
  cases hs : s.rest with
  | nil =>
    have h : Agrees s (.matched s) (.done [] s.rest) := .matched (.refl s)
    rwa [hs] at h
  | cons c rest => exact agrees_reject s

theorem advanced_mark (a : Action) (s : State) :
    Advanced s (s.emit (.action a) s.pos) [.node (.action a) []] where
  rest := rfl
  pos := rfl
  tokens := by simp [State.emit, tokensAll, tokens, textAll]
  active := rfl

inductive Settles (s : State) : Outcome → Parse → Prop where
  | matched {t : State} {ts : List Derivation} (h : Advanced s t ts) :
    Settles s (.matched t) (.done ts t.rest)
  | failed {t : State} (h : Advanced s t []) : Settles s (.failed t) .fail
  | tooDeep {offset : Nat} {rest : List Char} (h : offset + rest.length = s.pos + s.rest.length) :
    Settles s (.tooDeep offset) (.tooDeep rest)

theorem Settles.agrees {s : State} {o : Outcome} {p : Parse} (h : Settles s o p) :
    Agrees s o p := by
  cases h with
  | matched h => exact .matched h
  | failed h => exact .failed (by simp [h.tokens]) h.active
  | tooDeep h => exact .tooDeep h

theorem attempt_settles {step : State → Outcome} {s : State} {p : Parse}
    (h : Agrees s (step s) p) : Settles s (attempt step s) p := by
  unfold attempt
  generalize step s = o at h
  cases h with
  | matched h => exact .matched h
  | failed tokens active => exact .failed (advanced_rewind tokens active)
  | tooDeep h => exact .tooDeep h

theorem Advanced.emit {s t : State} {ts : List Derivation} (h : Advanced s t ts) (label : Label) :
    Advanced s (t.emit label s.pos) [.node label ts] where
  rest := by simpa [textAll, text, State.emit] using h.rest
  pos := by simpa [textAll, text, State.emit] using h.pos
  tokens := by simp [State.emit, tokensAll, Derivation.tokens, h.tokens, h.pos]
  active := h.active

theorem Advanced.exit {s t : State} {q : Production} {ts : List Derivation}
    (h : Advanced (s.enter q) t ts) : Advanced s t.exit ts where
  rest := h.rest
  pos := h.pos
  tokens := h.tokens
  active := by rw [State.exit, h.active, State.enter, List.tail_cons]

theorem within_settles {step : State → Outcome} {s : State} {p : Parse} (q : Production)
    (h : Agrees (s.enter q) (step (s.enter q)) p) :
    Settles s (within q step s) (p.wrap (.production q)) := by
  unfold within
  generalize step (s.enter q) = o at h
  cases h with
  | matched h => exact .matched (h.exit.emit (.production q))
  | failed tokens active =>
    refine .failed (advanced_rewind tokens ?_)
    rw [State.exit, active, State.enter, List.tail_cons]
  | tooDeep h => exact .tooDeep h

theorem capturing_settles {step : State → Outcome} {s : State} {p : Parse}
    (h : Agrees s (step s) p) : Settles s (capturing step s) (p.wrap .text) := by
  have hs := attempt_settles h
  unfold capturing
  generalize attempt step s = o at hs
  cases hs with
  | matched ht => exact .matched (ht.emit .text)
  | failed ht => exact .failed ht
  | tooDeep hd => exact .tooDeep hd

theorem repeating_agrees {step : State → Outcome} {plain : List Char → Parse}
    (ahead : List Char → Bool) (hstep : ∀ s, Agrees s (step s) (plain s.rest)) (s : State) :
    Agrees s (repeating ahead step s) (Parse.repeated ahead plain s.rest) := by
  -- By induction on what is left of the input, as the repetition itself goes on.
  induction hn : s.rest.length using Nat.strongRecOn generalizing s with
  | ind n ih =>
    rw [repeating, Parse.repeated]
    by_cases hahead : ahead s.rest = true
    · rw [if_pos hahead, if_pos hahead]
      have hs := attempt_settles (hstep s)
      generalize attempt step s = o at hs
      generalize plain s.rest = p at hs
      cases hs with
      | @matched t ts h =>
        by_cases hless : t.rest.length < s.rest.length
        · simp only [hless, if_true]
          exact Agrees.after h (ih t.rest.length (hn ▸ hless) t rfl)
        · simp only [hless, if_false]
          exact .matched h
      | failed h =>
        have hr : s.rest = _ := h.rest
        exact hr ▸ .matched h
      | tooDeep h => exact .tooDeep h
    · rw [if_neg hahead, if_neg hahead]
      exact .matched (.refl s)

/-- A reading by an expression agrees with the plainer one, if that is so of nested clauses. -/
theorem read_agrees {nested : State → Outcome} {plain : List Char → Parse}
    (hnested : ∀ s, Agrees s (nested s) (plain s.rest)) (e : Expr) (s : State) :
    Agrees s (e.read nested s) (e.parse plain s.rest) := by
  induction e generalizing s with
  | empty => exact .matched (.refl s)
  | one accepts => exact agrees_readOne accepts plain s
  | run accepts => exact .matched (advanced_skip accepts s)
  | finish => exact agrees_readEnd plain s
  | mark a => exact .matched (advanced_mark a s)
  | seq e f ihe ihf =>
    have he := ihe s
    rw [Expr.read, Expr.parse]
    generalize e.read nested s = o at he
    generalize e.parse plain s.rest = p at he
    cases he with
    | @matched t ts h => exact .after h (ihf t)
    | failed tokens active => exact .failed tokens active
    | tooDeep h => exact .tooDeep h
  | alt e f ihe ihf =>
    have he := attempt_settles (ihe s)
    rw [Expr.read, Expr.parse]
    generalize attempt (e.read nested) s = o at he
    generalize e.parse plain s.rest = p at he
    cases he with
    | matched h => exact .matched h
    | @failed t h =>
      have hf := Agrees.after h (attempt_settles (ihf t)).agrees
      rw [Parse.prepend_nil, ← List.nil_append t.rest] at hf
      rw [h.rest]
      exact hf
    | tooDeep h => exact .tooDeep h
  | opt e ih =>
    have he := attempt_settles (ih s)
    rw [Expr.read, Expr.parse]
    generalize attempt (e.read nested) s = o at he
    generalize e.parse plain s.rest = p at he
    cases he with
    | matched h => exact .matched h
    | @failed t h =>
      rw [h.rest]
      exact .matched h
    | tooDeep h => exact .tooDeep h
  | many ahead e ih => exact repeating_agrees ahead ih s
  | ifNext c e f ihe ihf =>
    rw [Expr.read, Expr.parse]
    split
    · exact ihe s
    · exact ihf s
  | named p e ih => exact (within_settles p (ih (s.enter p))).agrees
  | capture e ih => exact (capturing_settles (ih s)).agrees
  | clause => exact hnested s

theorem readClause_agrees (depth : Nat) (s : State) :
    Agrees s (readClause depth s) (parseClause depth s.rest) := by
  induction depth generalizing s with
  | zero => exact .tooDeep rfl
  | succ depth ih => exact read_agrees ih whereClause s

theorem readQuery_agrees (settings : Settings) (input : List Char) :
    Agrees (.initial input settings.tokenCapacity) (readQuery settings input)
      (query.parse (parseClause settings.maxDepth) input) :=
  read_agrees (readClause_agrees settings.maxDepth) query _

end TableLang.Match

namespace TableLang.Grammar
open Grammar.Derivation

namespace Parse

theorem prepend_eq_done {p : Parse} {ts us : List Derivation} {rest : List Char} :
    p.prepend ts = done us rest ↔ ∃ vs, p = done vs rest ∧ us = ts ++ vs := by
  constructor
  · intro h
    cases p with
    | done vs rest' =>
      cases h
      exact ⟨vs, rfl, rfl⟩
    | fail => cases h
    | tooDeep rest' => cases h
  · rintro ⟨vs, rfl, rfl⟩
    rfl

theorem andThen_eq_done {p : Parse} {next : List Char → Parse} {us : List Derivation}
    {rest : List Char} :
    p.andThen next = done us rest ↔
      ∃ ts vs mid, p = done ts mid ∧ next mid = done vs rest ∧ us = ts ++ vs := by
  constructor
  · intro h
    cases p with
    | done ts mid =>
      obtain ⟨vs, hv, hu⟩ := prepend_eq_done.1 h
      exact ⟨ts, vs, mid, rfl, hv, hu⟩
    | fail => cases h
    | tooDeep rest' => cases h
  · rintro ⟨ts, vs, mid, rfl, hv, hu⟩
    exact prepend_eq_done.2 ⟨vs, hv, hu⟩

theorem orElse_eq_done {p q : Parse} {ts : List Derivation} {rest : List Char} :
    p.orElse q = done ts rest ↔ p = done ts rest ∨ p = fail ∧ q = done ts rest := by
  cases p <;> simp [orElse]

theorem wrap_eq_done {p : Parse} {label : Label} {ts : List Derivation} {rest : List Char} :
    p.wrap label = done ts rest ↔ ∃ us, p = done us rest ∧ ts = [.node label us] := by
  constructor
  · intro h
    cases p with
    | done us rest' =>
      cases h
      exact ⟨us, rfl, rfl⟩
    | fail => cases h
    | tooDeep rest' => cases h
  · rintro ⟨us, rfl, rfl⟩
    rfl

end Parse

theorem repeated_derives {depth : Nat} {ahead : List Char → Bool} {e : Expr}
    {step : List Char → Parse}
    (hstep : ∀ input ts rest, step input = .done ts rest → Derives depth e ts)
    {input : List Char} {ts : List Derivation} {rest : List Char}
    (h : Parse.repeated ahead step input = .done ts rest) :
    Derives depth (.many ahead e) ts := by
  fun_induction Parse.repeated ahead step input generalizing ts with
  | case1 input hahead us mid hs hless ih =>
    obtain ⟨vs, hv, rfl⟩ := Parse.prepend_eq_done.1 h
    exact .manyMore (hstep _ _ _ hs) (ih hv)
  | case2 input hahead us mid hs hless =>
    cases h
    have once : Derives depth (.many ahead e) (us ++ []) := .manyMore (hstep _ _ _ hs) .manyNone
    rwa [List.append_nil] at once
  | case3 input hahead hs =>
    cases h
    exact .manyNone
  | case4 input hahead mid hs => cases h
  | case5 input hahead =>
    cases h
    exact .manyNone

/-- What the plainer reading finds is derived, if that is so of nested clauses. -/
theorem parse_derives {depth : Nat} {nested : List Char → Parse}
    (hnested : ∀ input ts rest, nested input = .done ts rest → Derives depth .clause ts)
    (e : Expr) (input : List Char) (ts : List Derivation) (rest : List Char)
    (h : e.parse nested input = .done ts rest) : Derives depth e ts := by
  induction e generalizing input ts rest with
  | empty =>
    cases h
    exact .empty
  | one accepts =>
    cases input with
    | nil => cases h
    | cons c input =>
      rw [Expr.parse] at h
      split at h
      · rename_i hc
        cases h
        exact .one hc
      · cases h
  | run accepts =>
    cases h
    exact .run (List.all_eq_true.1 List.all_takeWhile)
  | finish =>
    rw [Expr.parse] at h
    split at h
    · cases h
      exact .finish
    · cases h
  | mark a =>
    cases h
    exact .mark
  | seq e f ihe ihf =>
    obtain ⟨us, vs, mid, he, hf, rfl⟩ := Parse.andThen_eq_done.1 h
    exact .seq (ihe _ _ _ he) (ihf _ _ _ hf)
  | alt e f ihe ihf =>
    obtain he | ⟨-, hf⟩ := Parse.orElse_eq_done.1 h
    · exact .altFirst (ihe _ _ _ he)
    · exact .altSecond (ihf _ _ _ hf)
  | opt e ih =>
    obtain he | ⟨-, hnone⟩ := Parse.orElse_eq_done.1 h
    · exact .optSome (ih _ _ _ he)
    · cases hnone
      exact .optNone
  | many ahead e ih => exact repeated_derives ih h
  | ifNext c e f ihe ihf =>
    rw [Expr.parse] at h
    split at h
    · exact .ifYes (ihe _ _ _ h)
    · exact .ifNo (ihf _ _ _ h)
  | named p e ih =>
    obtain ⟨us, he, rfl⟩ := Parse.wrap_eq_done.1 h
    exact .named (ih _ _ _ he)
  | capture e ih =>
    obtain ⟨us, he, rfl⟩ := Parse.wrap_eq_done.1 h
    exact .capture (ih _ _ _ he)
  | clause => exact hnested _ _ _ h

theorem parseClause_derives (depth : Nat) (input : List Char) (ts : List Derivation)
    (rest : List Char) (h : parseClause depth input = .done ts rest) :
    Derives depth .clause ts := by
  induction depth generalizing input ts rest with
  | zero => cases h
  | succ depth ih => exact .clause (parse_derives ih whereClause input ts rest h)

/-- A query that is found is the whole input. -/
theorem rest_of_parse_query {nested : List Char → Parse} {input rest : List Char}
    {ts : List Derivation} (h : query.parse nested input = .done ts rest) : rest = [] := by
  obtain ⟨us, h, -⟩ := Parse.wrap_eq_done.1 h
  obtain ⟨_, _, _, _, h, _⟩ := Parse.andThen_eq_done.1 h
  obtain ⟨_, _, _, _, h, _⟩ := Parse.andThen_eq_done.1 h
  obtain ⟨_, _, mid, _, h, _⟩ := Parse.andThen_eq_done.1 h
  rw [Expr.seqAll, Expr.parse] at h
  split at h
  · cases h
    rfl
  · cases h

end TableLang.Grammar

namespace TableLang.Match
open Grammar Grammar.Derivation

theorem input_eq_of_parse {depth : Nat} {e : Expr} {input rest : List Char} {ts : List Derivation}
    (h : e.parse (parseClause depth) input = .done ts rest) : input = textAll ts ++ rest := by
  have hagrees := read_agrees (readClause_agrees depth) e (.initial input 0)
  change Agrees _ _ (e.parse (parseClause depth) input) at hagrees
  rw [h] at hagrees
  generalize e.read _ _ = o at hagrees
  cases hagrees with
  | matched ht => exact ht.rest

/-- A text has tokens exactly when it is not too long and the plainer reading finds a query in it;
the tokens are then those of the derivation. -/
theorem tokensOf_eq_ok_iff {settings : Settings} {input : List Char} {tokens : List Token} :
    tokensOf settings input = .ok tokens ↔
      input.length ≤ maxInputLength ∧
        ∃ ts, query.parse (parseClause settings.maxDepth) input = .done ts [] ∧
          tokens = tokensAll 0 ts := by
  unfold tokensOf
  by_cases hlong : maxInputLength < input.length
  · simp [hlong, Nat.not_le.2 hlong]
  · have hle : input.length ≤ maxInputLength := Nat.not_lt.1 hlong
    have h := readQuery_agrees settings input
    generalize hp : query.parse (parseClause settings.maxDepth) input = p at h ⊢
    generalize readQuery settings input = o at h
    rw [if_neg hlong]
    cases h with
    | matched ht =>
      have tokens_eq := ht.tokens
      simp [State.initial] at tokens_eq
      simp [hle, rest_of_parse_query hp, tokens_eq, eq_comm]
    | failed => simp
    | tooDeep => simp

end TableLang.Match
