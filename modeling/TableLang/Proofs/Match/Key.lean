import TableLang.Proofs.Match.Backtracking

/-! Keys. Whether a key goes on is decided by looking ahead, not by trying to read a part. Main
statement: nothing is lost or gained by this, for a part is seen ahead exactly where one can be
read; so a key takes the longest row of parts there is, and a mismatch is met only where it has
none. -/
namespace TableLang.Grammar
open Sentence

def writtenKeyPart : Expr := .alt escape (.one isKeyChar)

def writtenKey : Expr := .named .key (.seq writtenKeyPart (.star writtenKeyPart))

theorem startsKeyPart_backslash {cs : List Char} :
    startsKeyPart ('\\' :: cs) = false ↔ Stops isEscapable cs := by
  cases cs with
  | nil => exact ⟨fun _ => stops_nil _, fun _ => rfl⟩
  | cons c cs =>
    change isEscapable c = false ↔ _
    exact stops_cons.symm

section Texts
variable {input rest rest' : List Char} {ps qs : List KeyPart}

theorem exists_keyPart (h : startsKeyPart input = true) :
    ∃ (p : KeyPart) (rest : List Char), input = p.text ++ rest := by
  unfold startsKeyPart at h
  split at h
  · exact ⟨.escape _ h, _, rfl⟩
  · exact ⟨.plain _ h, _, rfl⟩
  · cases h

theorem exists_keyParts (input : List Char) :
    ∃ (ps : List KeyPart) (rest : List Char),
      input = ps.flatMap KeyPart.text ++ rest ∧ startsKeyPart rest = false := by
  induction hlength : input.length using Nat.strongRecOn generalizing input with
  | ind n ih =>
    cases hstarts : startsKeyPart input with
    | false => exact ⟨[], input, rfl, hstarts⟩
    | true =>
      obtain ⟨p, more, rfl⟩ := exists_keyPart hstarts
      have hpos := length_keyPart_pos p
      rw [List.length_append] at hlength
      obtain ⟨ps, rest, rfl, hrest⟩ := ih more.length (by omega) more rfl
      exact ⟨p :: ps, rest, by rw [List.flatMap_cons, List.append_assoc], hrest⟩

/-- No part of a key begins another one. -/
theorem keyPart_text_inj {p q : KeyPart} (h : p.text ++ rest = q.text ++ rest') :
    p = q ∧ rest = rest' := by
  cases p with
  | plain c hc =>
    cases q with
    | plain d hd =>
      obtain ⟨rfl, rfl⟩ := List.cons.inj h
      exact ⟨rfl, rfl⟩
    | escape d hd =>
      obtain ⟨rfl, -⟩ := List.cons.inj h
      cases hc
  | escape c hc =>
    cases q with
    | plain d hd =>
      obtain ⟨rfl, -⟩ := List.cons.inj h
      cases hd
    | escape d hd =>
      obtain ⟨-, h⟩ := List.cons.inj h
      obtain ⟨rfl, rfl⟩ := List.cons.inj h
      exact ⟨rfl, rfl⟩

/-- A row of parts after which none follows is the longest one: all others begin it. -/
theorem prefix_of_keyParts (hrest : startsKeyPart rest = false)
    (h : qs.flatMap KeyPart.text ++ rest' = ps.flatMap KeyPart.text ++ rest) : qs <+: ps := by
  induction qs generalizing ps with
  | nil => exact List.nil_prefix
  | cons q qs ih =>
    cases ps with
    | nil =>
      rw [List.flatMap_cons, List.append_assoc, List.flatMap_nil, List.nil_append] at h
      have hstarts := startsKeyPart_text q (qs.flatMap KeyPart.text ++ rest')
      rw [h, hrest] at hstarts
      cases hstarts
    | cons p ps =>
      rw [List.flatMap_cons, List.flatMap_cons, List.append_assoc, List.append_assoc] at h
      obtain ⟨rfl, hmore⟩ := keyPart_text_inj h
      exact List.cons_prefix_cons.2 ⟨rfl, ih hmore⟩

theorem rest_eq_of_keyParts (hrest : startsKeyPart rest = false)
    (hrest' : startsKeyPart rest' = false)
    (h : qs.flatMap KeyPart.text ++ rest' = ps.flatMap KeyPart.text ++ rest) : rest' = rest := by
  have hps : ps = qs :=
    (prefix_of_keyParts hrest' h.symm).eq_of_length_le (prefix_of_keyParts hrest h).length_le
  rw [hps] at h
  exact List.append_cancel_left h

end Texts

section Parsing
variable {nested : List Char → Parse} {input : List Char}

theorem parse_keyPart_fail (h : startsKeyPart input = false) :
    keyPart.parse nested input = .fail := by
  cases input with
  | nil => rfl
  | cons c cs =>
    by_cases hc : c = '\\'
    · subst hc
      have hescape : escape.parse nested ('\\' :: cs) = .fail :=
        parse_named_fail _ (parse_seq_fail_second (parse_char _ cs)
          (parse_one_fail (startsKeyPart_backslash.1 h)))
      simpa [keyPart, Expr.parse] using hescape
    · rw [startsKeyPart_cons cs hc] at h
      simp [keyPart, Expr.parse, hc, h]

/-- Trying an escape first is the same as looking for its backslash. -/
theorem parse_writtenKeyPart : writtenKeyPart.parse nested input = keyPart.parse nested input := by
  by_cases hhead : input.head? = some '\\'
  · obtain ⟨cs, rfl⟩ := List.head?_eq_some_iff.1 hhead
    have hone : (Expr.one isKeyChar).parse nested ('\\' :: cs) = .fail :=
      parse_one_fail (stops_cons.2 rfl)
    have hpart : keyPart.parse nested ('\\' :: cs) = escape.parse nested ('\\' :: cs) := by
      rw [keyPart, Expr.parse, if_pos hhead]
    change (escape.parse nested _).orElse ((Expr.one isKeyChar).parse nested _) = _
    rw [hpart, hone]
    cases escape.parse nested ('\\' :: cs) <;> rfl
  · have hescape : escape.parse nested input = .fail := by
      refine parse_named_fail _ (parse_seq_fail _ (parse_char_fail fun c hc => ?_))
      exact decide_eq_false fun h => hhead (h ▸ hc)
    rw [writtenKeyPart, parse_alt_second _ hescape, keyPart, Expr.parse, if_neg hhead]

/-- Looking ahead makes no difference where a step could not be read anyway. -/
theorem repeated_of_fail {ahead : List Char → Bool} {step : List Char → Parse}
    (h : ∀ input, ahead input = false → step input = .fail) (input : List Char) :
    Parse.repeated (fun _ => true) step input = Parse.repeated ahead step input := by
  induction hlength : input.length using Nat.strongRecOn generalizing input with
  | ind n ih =>
    rw [Parse.repeated, Parse.repeated, if_pos rfl]
    cases hahead : ahead input with
    | false => simp [h input hahead]
    | true =>
      simp only [if_true]
      cases step input with
      | done ts rest =>
        by_cases hless : rest.length < input.length
        · simp only [hless, if_true]
          rw [ih rest.length (hlength ▸ hless) rest rfl]
        · simp only [hless, if_false]
      | fail => rfl
      | tooDeep rest => rfl

theorem parse_writtenKey : writtenKey.parse nested input = key.parse nested input := by
  have hpart : writtenKeyPart.parse nested = keyPart.parse nested :=
    funext fun _ => parse_writtenKeyPart
  have hmany : (Expr.star writtenKeyPart).parse nested =
      (Expr.many startsKeyPart keyPart).parse nested := by
    funext more
    rw [Expr.star, Expr.parse, Expr.parse, hpart]
    exact repeated_of_fail (fun _ => parse_keyPart_fail) more
  rw [writtenKey, key, Expr.parse, Expr.parse, Expr.parse, Expr.parse, hpart, hmany]

theorem parse_key_fail (h : startsKeyPart input = false) : key.parse nested input = .fail :=
  parse_named_fail _ (parse_seq_fail _ (parse_keyPart_fail h))

end Parsing

def escapeTokens (start : Nat) : List KeyPart → List Token
  | [] => []
  | .plain .. :: ps => escapeTokens (start + 1) ps
  | .escape .. :: ps => ⟨.production .escape, start, start + 2⟩ :: escapeTokens (start + 2) ps

theorem tokensAll_keyParts (start : Nat) (ps : List KeyPart) :
    Derivation.tokensAll start (ps.map KeyPart.derivation) = escapeTokens start ps := by
  induction ps generalizing start with
  | nil => rfl
  | cons p ps ih =>
    cases p with
    | plain c h => exact ih (start + 1)
    | escape c h => exact congrArg (_ :: ·) (ih (start + 2))

end TableLang.Grammar

namespace TableLang.Match
open Grammar Grammar.Derivation
open Sentence (Key KeyPart)

section Agreement
variable {depth : Nat} {e : Expr} {s : State}

theorem exists_matched_of_parse {ts : List Derivation} {rest : List Char}
    (h : e.parse (parseClause depth) s.rest = .done ts rest) :
    ∃ t, e.read (readClause depth) s = .matched t ∧ Advanced s t ts ∧ t.rest = rest := by
  have hagrees := read_agrees (readClause_agrees depth) e s
  rw [h] at hagrees
  generalize e.read (readClause depth) s = o at hagrees
  cases hagrees with
  | matched ht => exact ⟨_, rfl, ht, rfl⟩

theorem exists_failed_of_parse (h : e.parse (parseClause depth) s.rest = .fail) :
    ∃ t, e.read (readClause depth) s = .failed t := by
  have hagrees := read_agrees (readClause_agrees depth) e s
  rw [h] at hagrees
  generalize e.read (readClause depth) s = o at hagrees
  cases hagrees with
  | failed tokens active => exact ⟨_, rfl⟩

end Agreement

structure State.Level (t t' : State) : Prop where
  rest : t'.rest = t.rest
  pos : t'.pos = t.pos
  tokens : t'.tokens.toList = t.tokens.toList
  active : t'.active = t.active

inductive Outcome.Level : Outcome → Outcome → Prop where
  | matched {t t' : State} (h : t.Level t') : Level (.matched t) (.matched t')
  | failed {t t' : State} (h : t.Level t') : Level (.failed t) (.failed t')
  | tooDeep {offset : Nat} : Level (.tooDeep offset) (.tooDeep offset)

theorem Advanced.level {s t t' : State} {ts : List Derivation} (h : Advanced s t ts)
    (h' : Advanced s t' ts) : t.Level t' where
  rest := List.append_cancel_left (h'.rest.symm.trans h.rest)
  pos := by rw [h'.pos, h.pos]
  tokens := by rw [h'.tokens, h.tokens]
  active := by rw [h'.active, h.active]

theorem Settles.level {s : State} {o o' : Outcome} {p : Parse} (h : Settles s o p)
    (h' : Settles s o' p) : o.Level o' := by
  cases h with
  | matched h =>
    generalize hrest : Parse.done _ _ = p at h'
    cases h' with
    | matched h' =>
      obtain ⟨rfl, -⟩ := Parse.done.inj hrest
      exact .matched (h.level h')
    | failed h' => cases hrest
    | tooDeep h' => cases hrest
  | failed h =>
    cases h' with
    | failed h' => exact .failed (h.level h')
  | tooDeep h =>
    generalize hrest : Parse.tooDeep _ = p at h'
    cases h' with
    | matched h' => cases hrest
    | failed h' => cases hrest
    | tooDeep h' =>
      cases hrest
      obtain rfl := Nat.add_right_cancel (h.trans h'.symm)
      exact .tooDeep

/-- The loop that looks ahead reads what the written rule reads. -/
theorem writtenKey_level (depth : Nat) (s : State) :
    (writtenKey.read (readClause depth) s).Level (key.read (readClause depth) s) := by
  have hwritten : Settles s (writtenKey.read (readClause depth) s)
      (writtenKey.parse (parseClause depth) s.rest) :=
    within_settles .key (read_agrees (readClause_agrees depth) _ (s.enter .key))
  have hkey : Settles s (key.read (readClause depth) s) (key.parse (parseClause depth) s.rest) :=
    within_settles .key (read_agrees (readClause_agrees depth) _ (s.enter .key))
  rw [parse_writtenKey] at hwritten
  exact hwritten.level hkey

/-- The mismatch met where no part of a key can be read: at what follows the backslash, if there is
one, and else at the present place. -/
def State.partMismatch (s : State) : Mismatch :=
  if s.rest.head? = some '\\' then ⟨.escape, s.pos, s.pos + 1, s.rest.tail.head?⟩ else s.mismatch

section Mismatches
variable {nested : State → Outcome} {met : State → List Mismatch}

theorem mismatches_escape {s : State} {cs : List Char} (hrest : s.rest = '\\' :: cs) :
    escape.mismatches nested met s =
      if startsKeyPart ('\\' :: cs) then [] else [⟨.escape, s.pos, s.pos + 1, cs.head?⟩] := by
  cases cs with
  | nil =>
    have hstarts : startsKeyPart ['\\'] = false := rfl
    simp [escape, Expr.mismatches, Expr.char, Expr.read, State.readOne, hrest, hstarts,
      State.mismatch, State.enter]
  | cons c cs =>
    have hstarts : startsKeyPart ('\\' :: c :: cs) = isEscapable c := rfl
    cases hc : isEscapable c <;>
      simp [escape, Expr.mismatches, Expr.char, Expr.read, State.readOne, hrest, hstarts, hc,
        State.mismatch, State.enter]

theorem mismatches_keyPart (s : State) :
    keyPart.mismatches nested met s =
      if startsKeyPart s.rest then [] else [s.partMismatch] := by
  rw [keyPart, Expr.mismatches, State.partMismatch]
  by_cases hhead : s.rest.head? = some '\\'
  · obtain ⟨cs, hrest⟩ := List.head?_eq_some_iff.1 hhead
    rw [if_pos hhead, if_pos hhead, mismatches_escape hrest, hrest, List.tail_cons]
  · rw [if_neg hhead, if_neg hhead, Expr.mismatches]
    cases hrest : s.rest with
    | nil => rfl
    | cons c cs =>
      have hc : c ≠ '\\' := fun h => hhead (by rw [hrest, h]; rfl)
      rw [startsKeyPart_cons cs hc, List.head?_cons, Option.any_some]

end Mismatches

section Reading
variable (depth : Nat)

theorem exists_read_keyPart {s : State} (h : startsKeyPart s.rest = true) :
    ∃ (p : KeyPart) (t : State), keyPart.read (readClause depth) s = .matched t ∧
      Advanced s t [p.derivation] ∧ t.rest.length < s.rest.length := by
  obtain ⟨p, rest, hrest⟩ := exists_keyPart h
  have hparse : keyPart.parse (parseClause depth) s.rest = .done [p.derivation] rest := by
    rw [hrest]
    exact parse_keyPart p rest
  obtain ⟨t, hread, hadvanced, htrest⟩ := exists_matched_of_parse hparse
  refine ⟨p, t, hread, hadvanced, ?_⟩
  have hpos := length_keyPart_pos p
  rw [htrest, hrest, List.length_append]
  omega

theorem startsKeyPart_iff (s : State) :
    startsKeyPart s.rest = true ↔ ∃ t, keyPart.read (readClause depth) s = .matched t := by
  constructor
  · intro h
    obtain ⟨p, t, hread, -⟩ := exists_read_keyPart depth h
    exact ⟨t, hread⟩
  · rintro ⟨t, hread⟩
    refine Bool.of_not_eq_false fun h => ?_
    obtain ⟨u, hfailed⟩ := exists_failed_of_parse (parse_keyPart_fail h)
    rw [hread] at hfailed
    cases hfailed

/-- The parts of a key after the first are read without a mismatch. -/
theorem mismatches_keyParts (met : State → List Mismatch) (s : State) :
    (Expr.many startsKeyPart keyPart).mismatches (readClause depth) met s = [] := by
  rw [Expr.mismatches]
  induction hlength : s.rest.length using Nat.strongRecOn generalizing s with
  | ind k ih =>
    rw [mismatchesOfMany]
    cases hstarts : startsKeyPart s.rest with
    | false => rfl
    | true =>
      obtain ⟨p, t, hread, -, hless⟩ := exists_read_keyPart depth hstarts
      rw [if_pos rfl, mismatches_keyPart, hstarts, if_pos rfl, attempt_eq_matched.2 hread]
      simp only [hless, if_true, List.nil_append]
      exact ih t.rest.length (hlength ▸ hless) t rfl

theorem mismatches_key (met : State → List Mismatch) (s : State) :
    key.mismatches (readClause depth) met s =
      if startsKeyPart s.rest then [] else [(s.enter .key).partMismatch] := by
  have hpart : keyPart.mismatches (readClause depth) met (s.enter .key) = _ :=
    mismatches_keyPart (s.enter .key)
  rw [key, Expr.mismatches, Expr.mismatches, hpart]
  cases keyPart.read (readClause depth) (s.enter .key) <;>
    simp only [mismatches_keyParts, List.append_nil] <;> rfl

/-- The state `t` comes after a key at the state `s` that is the row of parts `ps`. It is the
longest one: any other row of parts there begins it, and none follows it. -/
structure KeyRead (s t : State) (ps : List KeyPart) : Prop where
  nonempty : ps ≠ []
  text : s.rest = ps.flatMap KeyPart.text ++ t.rest
  longest : ∀ (qs : List KeyPart) (rest : List Char),
    s.rest = qs.flatMap KeyPart.text ++ rest → qs <+: ps
  stops : startsKeyPart t.rest = false
  backslash : ∀ (qs : List KeyPart) (cs : List Char),
    s.rest = qs.flatMap KeyPart.text ++ '\\' :: cs → Stops isEscapable cs → t.rest = '\\' :: cs
  pos : t.pos = s.pos + (ps.flatMap KeyPart.text).length
  tokens : t.tokens.toList =
    s.tokens.toList ++ (escapeTokens s.pos ps ++ [⟨.production .key, s.pos, t.pos⟩])
  active : t.active = s.active
  furthest : t.furthest = s.furthest

theorem exists_read_key {s : State} (h : startsKeyPart s.rest = true) :
    ∃ ps t, key.read (readClause depth) s = .matched t ∧ KeyRead s t ps := by
  obtain ⟨ps, rest, hrest, hstops⟩ := exists_keyParts s.rest
  cases ps with
  | nil =>
    rw [hrest, List.flatMap_nil, List.nil_append, hstops] at h
    cases h
  | cons p ps =>
    have hparse : key.parse (parseClause depth) s.rest = .done [(Key.mk p ps).derivation] rest := by
      rw [hrest]
      exact parse_key ⟨p, ps⟩ hstops
    obtain ⟨t, hread, hadvanced, rfl⟩ := exists_matched_of_parse hparse
    -- What the derivation does not tell is that no mismatch was kept: none was met.
    have hkeeps := read_keeps (readClause_keeps depth) key s
    rw [hread, mismatches_key, h] at hkeeps
    have hpos : t.pos = s.pos + ((p :: ps).flatMap KeyPart.text).length := by
      rw [hadvanced.pos, textAll, textAll, List.append_nil, Key.text_derivation, Key.text]
    refine ⟨p :: ps, t, hread, List.cons_ne_nil _ _, hrest, fun qs rest' hqs => ?_, hstops,
      fun qs cs hqs hcs => ?_, hpos, ?_, hadvanced.active, hkeeps⟩
    · exact prefix_of_keyParts hstops (hqs.symm.trans hrest)
    · exact (rest_eq_of_keyParts hstops (startsKeyPart_backslash.2 hcs)
        (hqs.symm.trans hrest)).symm
    · rw [hadvanced.tokens, tokensAll, tokensAll, List.append_nil, Key.derivation, tokens,
        tokensAll_keyParts, KeyPart.textAll_map, hpos]

end Reading

/-- Looking ahead for a part of a key is right: one is seen exactly where one can be read, and then
it is read, a plain character or a backslash with another character, without a mismatch. Hence a key
is read exactly where a part is seen; it takes the longest row of parts, leaves a token for each
escape and one for the key, and meets no mismatch; and elsewhere it fails with the one mismatch that
its first part meets. In both cases it ends as the written rule does. -/
theorem key_reads_longest_row_of_parts (depth : Nat) (s : State) :
    (startsKeyPart s.rest = true ↔ ∃ t, keyPart.read (readClause depth) s = .matched t) ∧
    (∀ t, keyPart.read (readClause depth) s = .matched t →
      keyPart.mismatches (readClause depth) (clauseMismatches depth) s = [] ∧
      t.furthest = s.furthest ∧
      ∃ p : KeyPart, s.rest = p.text ++ t.rest ∧ t.pos = s.pos + p.text.length) ∧
    (startsKeyPart s.rest = true →
      key.mismatches (readClause depth) (clauseMismatches depth) s = [] ∧
      ∃ ps t, key.read (readClause depth) s = .matched t ∧ KeyRead s t ps) ∧
    (startsKeyPart s.rest = false →
      key.mismatches (readClause depth) (clauseMismatches depth) s =
        [(s.enter .key).partMismatch] ∧
      ∃ t, key.read (readClause depth) s = .failed t ∧ s.BackAt t) ∧
    (writtenKey.read (readClause depth) s).Level (key.read (readClause depth) s) := by
  refine ⟨startsKeyPart_iff depth s, fun t ht => ?_, fun h => ?_, fun h => ?_,
    writtenKey_level depth s⟩
  · have hstarts := (startsKeyPart_iff depth s).2 ⟨t, ht⟩
    have hmet : keyPart.mismatches (readClause depth) (clauseMismatches depth) s = [] := by
      rw [mismatches_keyPart, hstarts, if_pos rfl]
    have hkeeps := read_keeps (readClause_keeps depth) keyPart s
    rw [ht, hmet] at hkeeps
    obtain ⟨p, u, hu, hadvanced, -⟩ := exists_read_keyPart depth hstarts
    obtain rfl := Outcome.matched.inj (ht.symm.trans hu)
    refine ⟨hmet, hkeeps, p, ?_, ?_⟩
    · simpa [textAll] using hadvanced.rest
    · simpa [textAll] using hadvanced.pos
  · exact ⟨by rw [mismatches_key, h, if_pos rfl], exists_read_key depth h⟩
  · refine ⟨by rw [mismatches_key, h]; rfl, ?_⟩
    obtain ⟨t, ht⟩ : ∃ t, key.read (readClause depth) s = .failed t :=
      exists_failed_of_parse (parse_key_fail h)
    have hundone := reading_doneOrUndone depth s .key
    change (key.read (readClause depth) s).DoneOrUndone s at hundone
    rw [ht] at hundone
    exact ⟨t, ht, hundone⟩

end TableLang.Match
