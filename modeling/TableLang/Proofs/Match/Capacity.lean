import TableLang.Proofs.Token.Buffer
import TableLang.Reading

/-! The room made for tokens in advance has no influence on a reading. Main statement: a buffer of
tokens is a plain list to those who use it, and so two readings of one text end alike whatever room
they begin with. -/
namespace TableLang.Match
open Grammar

/-- Two states that differ in nothing but the slots behind their tokens. -/
structure State.Alike (s s' : State) : Prop where
  rest : s'.rest = s.rest
  pos : s'.pos = s.pos
  tokens : s'.tokens.toList = s.tokens.toList
  active : s'.active = s.active
  furthest : s'.furthest = s.furthest

inductive Outcome.Alike : Outcome → Outcome → Prop where
  | matched {t t' : State} (h : t.Alike t') : Alike (.matched t) (.matched t')
  | failed {t t' : State} (h : t.Alike t') : Alike (.failed t) (.failed t')
  | tooDeep {offset : Nat} : Alike (.tooDeep offset) (.tooDeep offset)

section Transitions
variable {s s' t t' : State}

theorem State.Alike.kept (h : s.Alike s') : s'.tokens.length = s.tokens.length := by
  rw [← TokenBuffer.length_toList, ← TokenBuffer.length_toList, h.tokens]

theorem State.Alike.mismatch (h : s.Alike s') : s'.mismatch = s.mismatch := by
  unfold State.mismatch
  rw [h.active, h.pos, h.rest]

theorem State.Alike.note (h : s.Alike s') : s.note.Alike s'.note := by
  have hkept : State.Alike { s with furthest := some s.mismatch }
      { s' with furthest := some s'.mismatch } :=
    ⟨h.rest, h.pos, h.tokens, h.active, congrArg some h.mismatch⟩
  unfold State.note
  rw [h.furthest]
  cases s.furthest with
  | none => exact hkept
  | some m =>
    by_cases hlt : m.stop < s.pos
    · have hlt' : m.stop < s'.pos := h.pos ▸ hlt
      simp only [hlt, hlt', if_true]
      exact hkept
    · have hlt' : ¬ m.stop < s'.pos := h.pos ▸ hlt
      simp only [hlt, hlt', if_false]
      exact h

theorem State.Alike.emit (h : s.Alike s') (label : Label) (start : Nat) :
    (s.emit label start).Alike (s'.emit label start) where
  rest := h.rest
  pos := h.pos
  tokens := by simp only [State.emit, TokenBuffer.toList_push, h.tokens, h.pos]
  active := h.active
  furthest := h.furthest

theorem State.Alike.rewind (h : t.Alike t') (hs : s.Alike s') :
    (t.rewind s.rest s.pos s.tokens.length).Alike
      (t'.rewind s'.rest s'.pos s'.tokens.length) where
  rest := hs.rest
  pos := hs.pos
  tokens := by simp only [State.rewind, TokenBuffer.toList_truncate, h.tokens, hs.kept]
  active := h.active
  furthest := h.furthest

theorem State.Alike.enter (h : s.Alike s') (p : Production) : (s.enter p).Alike (s'.enter p) where
  rest := h.rest
  pos := h.pos
  tokens := h.tokens
  active := by simp only [State.enter, h.pos, h.active]
  furthest := h.furthest

theorem State.Alike.exit (h : s.Alike s') : s.exit.Alike s'.exit :=
  ⟨h.rest, h.pos, h.tokens, congrArg List.tail h.active, h.furthest⟩

theorem State.Alike.readOne (h : s.Alike s') (accepts : Char → Bool) :
    (s.readOne accepts).Alike (s'.readOne accepts) := by
  unfold State.readOne
  rw [h.rest]
  cases s.rest with
  | nil => exact .failed h.note
  | cons c cs =>
    by_cases hc : accepts c = true
    · simp only [hc, if_true]
      exact .matched ⟨rfl, congrArg (· + 1) h.pos, h.tokens, h.active, h.furthest⟩
    · simp only [hc]
      exact .failed h.note

theorem State.Alike.skip (h : s.Alike s') (accepts : Char → Bool) :
    (s.skip accepts).Alike (s'.skip accepts) where
  rest := by simp only [State.skip, h.rest]
  pos := by simp only [State.skip, h.rest, h.pos]
  tokens := h.tokens
  active := h.active
  furthest := h.furthest

theorem State.Alike.readEnd (h : s.Alike s') : s.readEnd.Alike s'.readEnd := by
  unfold State.readEnd
  rw [h.rest]
  cases s.rest with
  | nil => exact .matched h
  | cons c cs => exact .failed h.note

end Transitions

section Steps
variable {step : State → Outcome} {s s' : State}

theorem attempt_alike (hs : s.Alike s') (h : (step s).Alike (step s')) :
    (attempt step s).Alike (attempt step s') := by
  unfold attempt
  generalize step s = o at h
  generalize step s' = o' at h
  cases h with
  | matched h => exact .matched h
  | failed h => exact .failed (h.rewind hs)
  | tooDeep => exact .tooDeep

theorem within_alike {p : Production} (hs : s.Alike s')
    (h : (step (s.enter p)).Alike (step (s'.enter p))) :
    (within p step s).Alike (within p step s') := by
  unfold within
  generalize step (s.enter p) = o at h
  generalize step (s'.enter p) = o' at h
  cases h with
  | matched h =>
    simp only [hs.pos]
    exact .matched (h.exit.emit _ _)
  | failed h => exact .failed (h.exit.rewind hs)
  | tooDeep => exact .tooDeep

theorem capturing_alike (hs : s.Alike s') (h : (attempt step s).Alike (attempt step s')) :
    (capturing step s).Alike (capturing step s') := by
  unfold capturing
  generalize attempt step s = o at h
  generalize attempt step s' = o' at h
  cases h with
  | matched h =>
    simp only [hs.pos]
    exact .matched (h.emit _ _)
  | failed h => exact .failed h
  | tooDeep => exact .tooDeep

theorem repeating_alike (ahead : List Char → Bool)
    (hstep : ∀ s s', s.Alike s' → (step s).Alike (step s')) (hs : s.Alike s') :
    (repeating ahead step s).Alike (repeating ahead step s') := by
  induction hlength : s.rest.length using Nat.strongRecOn generalizing s s' with
  | ind k ih =>
    rw [repeating, repeating, hs.rest]
    by_cases hahead : ahead s.rest = true
    · rw [if_pos hahead, if_pos hahead]
      have hattempt := attempt_alike hs (hstep s s' hs)
      generalize attempt step s = o at hattempt
      generalize attempt step s' = o' at hattempt
      cases hattempt with
      | @matched t t' h =>
        simp only [h.rest]
        by_cases hless : t.rest.length < s.rest.length
        · simp only [hless, if_true]
          exact ih t.rest.length (hlength ▸ hless) h rfl
        · simp only [hless, if_false]
          exact .matched h
      | failed h => exact .matched h
      | tooDeep => exact .tooDeep
    · rw [if_neg hahead, if_neg hahead]
      exact .matched hs

end Steps

section Expressions
variable {nested : State → Outcome}

/-- Readings that begin alike end alike, if that is so of nested clauses. -/
theorem read_alike (hnested : ∀ s s', s.Alike s' → (nested s).Alike (nested s')) (e : Expr)
    (s s' : State) (hs : s.Alike s') : (e.read nested s).Alike (e.read nested s') := by
  induction e generalizing s s' with
  | empty => exact .matched hs
  | one accepts => exact hs.readOne accepts
  | run accepts => exact .matched (hs.skip accepts)
  | finish => exact hs.readEnd
  | mark a =>
    rw [Expr.read, Expr.read, hs.pos]
    exact .matched (hs.emit _ _)
  | seq e f ihe ihf =>
    have he := ihe s s' hs
    rw [Expr.read, Expr.read]
    generalize e.read nested s = o at he
    generalize e.read nested s' = o' at he
    cases he with
    | matched h => exact ihf _ _ h
    | failed h => exact .failed h
    | tooDeep => exact .tooDeep
  | alt e f ihe ihf =>
    have he := attempt_alike hs (ihe s s' hs)
    rw [Expr.read, Expr.read]
    generalize attempt (e.read nested) s = o at he
    generalize attempt (e.read nested) s' = o' at he
    cases he with
    | matched h => exact .matched h
    | failed h => exact attempt_alike h (ihf _ _ h)
    | tooDeep => exact .tooDeep
  | opt e ih =>
    have he := attempt_alike hs (ih s s' hs)
    rw [Expr.read, Expr.read]
    generalize attempt (e.read nested) s = o at he
    generalize attempt (e.read nested) s' = o' at he
    cases he with
    | matched h => exact .matched h
    | failed h => exact .matched h
    | tooDeep => exact .tooDeep
  | many ahead e ih => exact repeating_alike ahead ih hs
  | ifNext c e f ihe ihf =>
    rw [Expr.read, Expr.read, hs.rest]
    split
    · exact ihe s s' hs
    · exact ihf s s' hs
  | named p e ih => exact within_alike hs (ih _ _ (hs.enter p))
  | capture e ih => exact capturing_alike hs (attempt_alike hs (ih s s' hs))
  | clause => exact hnested s s' hs

theorem readClause_alike (depth : Nat) (s s' : State) (hs : s.Alike s') :
    (readClause depth s).Alike (readClause depth s') := by
  induction depth generalizing s s' with
  | zero =>
    rw [readClause, readClause, hs.pos]
    exact .tooDeep
  | succ depth ih => exact read_alike ih whereClause s s' hs

theorem readQuery_alike (settings : Settings) (capacity : Nat) (highlight : Bool)
    (input : List Char) :
    (readQuery settings input).Alike
      (readQuery { settings with tokenCapacity := capacity, highlight := highlight } input) := by
  refine read_alike (readClause_alike settings.maxDepth) query _ _ ⟨rfl, rfl, ?_, rfl, rfl⟩
  simp only [State.initial, TokenBuffer.toList_withCapacity]

end Expressions
end TableLang.Match

namespace TableLang
open Match

def ParseError.withHighlight (highlight : Bool) : ParseError → ParseError
  | mismatch e => mismatch { e with highlight := highlight }
  | other => other

/-- Neither the room for tokens nor the colour of messages has an influence on a reading, but that
an error says whether it is shown in colour. -/
theorem tokenize_room (settings : Settings) (capacity : Nat) (highlight : Bool) (source : String) :
    tokenize { settings with tokenCapacity := capacity, highlight := highlight } source =
      (tokenize settings source).mapError (.withHighlight highlight) := by
  have halike := readQuery_alike settings capacity highlight source.toList
  rw [tokenize, tokenize, tokensOf, tokensOf]
  by_cases hlong : maxInputLength < source.toList.length
  · rw [if_pos hlong, if_pos hlong]
    rfl
  · rw [if_neg hlong, if_neg hlong]
    generalize readQuery settings source.toList = o at halike
    generalize readQuery { settings with tokenCapacity := capacity, highlight := highlight }
      source.toList = o' at halike
    cases halike with
    | matched h => exact congrArg Except.ok h.tokens
    | failed h =>
      simp only [report, h.furthest]
      rfl
    | tooDeep => rfl

/-- A buffer of tokens that began with any room holds the tokens of a plain list that is used in the
same way, and its room is the least made by doubling that is enough for all lengths it has had. So
two readings of a text whose settings differ in the room for tokens and the colour of messages only
give the same tokens, or the same error but for its colour. -/
theorem room_for_tokens_is_invisible (room : Nat) (uses : List TokenBuffer.Use)
    (settings : Settings) (capacity : Nat) (highlight : Bool) (source : String) :
    (((TokenBuffer.withCapacity room).useAll uses).toList = TokenBuffer.listed uses ∧
      ((TokenBuffer.withCapacity room).useAll uses).release.toList = TokenBuffer.listed uses ∧
      ((TokenBuffer.withCapacity room).useAll uses).length ≤
        ((TokenBuffer.withCapacity room).useAll uses).capacity ∧
      IsLeast {enough | (∃ k, enough = max room 1 * 2 ^ k) ∧
          ∀ earlier, earlier <+: uses → (TokenBuffer.listed earlier).length ≤ enough}
        ((TokenBuffer.withCapacity room).useAll uses).capacity) ∧
    tokenize { settings with tokenCapacity := capacity, highlight := highlight } source =
      (tokenize settings source).mapError (.withHighlight highlight) := by
  refine ⟨⟨TokenBuffer.listed_eq room uses, ?_, TokenBuffer.length_le _,
    TokenBuffer.capacity_isLeast room uses⟩, tokenize_room settings capacity highlight source⟩
  rw [TokenBuffer.toList_release, TokenBuffer.listed_eq]

end TableLang
