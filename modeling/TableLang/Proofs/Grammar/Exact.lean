import TableLang.Proofs.Grammar.Sentence

/-! Reading a sentence gives it back: on the text of a phrase, followed by something that cannot
belong to it, the reading finds the derivation of that phrase and leaves what follows. Ordered
choice, greed and look-ahead never stand in the way of a sentence. -/
namespace TableLang.Grammar
open Sentence

def Stops (accepts : Char → Bool) (rest : List Char) : Prop :=
  ∀ c ∈ rest.head?, accepts c = false

@[simp]
theorem stops_nil (accepts : Char → Bool) : Stops accepts [] := by
  intro c hc
  cases hc

@[simp]
theorem stops_cons {accepts : Char → Bool} {c : Char} {rest : List Char} :
    Stops accepts (c :: rest) ↔ accepts c = false := by
  simp [Stops]

section Primitive
variable {nested : List Char → Parse}

theorem parse_seq {e f : Expr} {input mid rest : List Char} {ts us : List Derivation}
    (he : e.parse nested input = .done ts mid) (hf : f.parse nested mid = .done us rest) :
    (Expr.seq e f).parse nested input = .done (ts ++ us) rest := by
  rw [Expr.parse, he, Parse.andThen, hf, Parse.prepend]

theorem parse_seq_fail {e : Expr} (f : Expr) {input : List Char}
    (he : e.parse nested input = .fail) : (Expr.seq e f).parse nested input = .fail := by
  rw [Expr.parse, he, Parse.andThen]

theorem parse_seq_fail_second {e f : Expr} {input mid : List Char} {ts : List Derivation}
    (he : e.parse nested input = .done ts mid) (hf : f.parse nested mid = .fail) :
    (Expr.seq e f).parse nested input = .fail := by
  rw [Expr.parse, he, Parse.andThen, hf, Parse.prepend]

theorem parse_alt_first {e : Expr} (f : Expr) {input rest : List Char} {ts : List Derivation}
    (he : e.parse nested input = .done ts rest) :
    (Expr.alt e f).parse nested input = .done ts rest := by
  rw [Expr.parse, he, Parse.orElse]
  intro h
  cases h

theorem parse_alt_second {e : Expr} (f : Expr) {input : List Char}
    (he : e.parse nested input = .fail) :
    (Expr.alt e f).parse nested input = f.parse nested input := by
  rw [Expr.parse, he, Parse.orElse]

theorem parse_opt_some {e : Expr} {input rest : List Char}
    {ts : List Derivation} (he : e.parse nested input = .done ts rest) :
    (Expr.opt e).parse nested input = .done ts rest := by
  rw [Expr.parse, he, Parse.orElse]
  intro h
  cases h

theorem parse_opt_none {e : Expr} {input : List Char}
    (he : e.parse nested input = .fail) : (Expr.opt e).parse nested input = .done [] input := by
  rw [Expr.parse, he, Parse.orElse]

theorem parse_named (p : Production) {e : Expr} {input rest : List Char} {ts : List Derivation}
    (he : e.parse nested input = .done ts rest) :
    (Expr.named p e).parse nested input = .done [.node (.production p) ts] rest := by
  rw [Expr.parse, he, Parse.wrap]

theorem parse_named_fail (p : Production) {e : Expr} {input : List Char}
    (he : e.parse nested input = .fail) : (Expr.named p e).parse nested input = .fail := by
  rw [Expr.parse, he, Parse.wrap]

theorem parse_capture {e : Expr} {input rest : List Char} {ts : List Derivation}
    (he : e.parse nested input = .done ts rest) :
    (Expr.capture e).parse nested input = .done [.node .text ts] rest := by
  rw [Expr.parse, he, Parse.wrap]

theorem parse_mark (a : Action) (input : List Char) :
    (Expr.mark a).parse nested input = .done [.node (.action a) []] input := rfl

theorem parse_one {accepts : Char → Bool} {c : Char} (h : accepts c = true) (rest : List Char) :
    (Expr.one accepts).parse nested (c :: rest) = .done [.char c] rest := by
  simp [Expr.parse, h]

theorem parse_one_fail {accepts : Char → Bool} {input : List Char} (h : Stops accepts input) :
    (Expr.one accepts).parse nested input = .fail := by
  cases input with
  | nil => rfl
  | cons c rest => simp [Expr.parse, stops_cons.1 h]

theorem parse_char (c : Char) (rest : List Char) :
    (Expr.char c).parse nested (c :: rest) = .done [.char c] rest :=
  parse_one (by simp) rest

theorem parse_char_fail {c : Char} {input : List Char} (h : Stops (· = c) input) :
    (Expr.char c).parse nested input = .fail :=
  parse_one_fail h

theorem parse_run {accepts : Char → Bool} {cs rest : List Char}
    (hcs : ∀ c ∈ cs, accepts c = true) (hrest : Stops accepts rest) :
    (Expr.run accepts).parse nested (cs ++ rest) = .done (cs.map .char) rest := by
  rw [Expr.parse, List.takeWhile_append_of_pos hcs, List.dropWhile_append_of_pos hcs]
  cases rest with
  | nil => simp
  | cons c rest => simp [stops_cons.1 hrest]

theorem parse_word (text : String) (rest : List Char) :
    (Expr.word text).parse nested (text.toList ++ rest) =
      .done (text.toList.map .char) rest := by
  rw [Expr.word]
  induction text.toList with
  | nil => rfl
  | cons c cs ih =>
    cases cs with
    | nil => exact parse_char c rest
    | cons d cs => exact parse_seq (parse_char c _) ih

theorem parse_word_fail {text : String} {input : List Char} (h : ¬ text.toList <+: input) :
    (Expr.word text).parse nested input = .fail := by
  rw [Expr.word]
  generalize text.toList = cs at h
  induction cs generalizing input with
  | nil => exact absurd List.nil_prefix h
  | cons c cs ih =>
    by_cases hc : ∃ rest, input = c :: rest
    · obtain ⟨rest, rfl⟩ := hc
      rw [List.cons_prefix_cons] at h
      cases cs with
      | nil => exact absurd ⟨rfl, List.nil_prefix⟩ h
      | cons d cs =>
        have hfail := ih fun hp => h ⟨rfl, hp⟩
        simp only [List.map_cons, Expr.seqAll, Expr.parse, parse_char, Parse.andThen] at hfail ⊢
        rw [hfail, Parse.prepend]
    · have hchar : (Expr.char c).parse nested input = .fail := by
        refine parse_char_fail ?_
        cases input with
        | nil => exact stops_nil _
        | cons d rest => simpa using fun hd : d = c => hc ⟨rest, by rw [hd]⟩
      cases cs with
      | nil => exact hchar
      | cons d cs => exact parse_seq_fail _ hchar

theorem parse_word_fail_of_stops {text : String} {c : Char} {cs input : List Char}
    (htext : text.toList = c :: cs) (h : Stops (· = c) input) :
    (Expr.word text).parse nested input = .fail := by
  refine parse_word_fail ?_
  rw [htext]
  rintro ⟨rest, rfl⟩
  simp [Stops] at h

theorem parse_many_stop {ahead : List Char → Bool} {e : Expr} {input : List Char}
    (h : ahead input = false ∨ e.parse nested input = .fail) :
    (Expr.many ahead e).parse nested input = .done [] input := by
  rw [Expr.parse, Parse.repeated]
  cases h with
  | inl h => simp [h]
  | inr h => simp [h]

theorem parse_many_step {ahead : List Char → Bool} {e : Expr} {input mid rest : List Char}
    {ts us : List Derivation} (hahead : ahead input = true)
    (he : e.parse nested input = .done ts mid) (hless : mid.length < input.length)
    (hmore : (Expr.many ahead e).parse nested mid = .done us rest) :
    (Expr.many ahead e).parse nested input = .done (ts ++ us) rest := by
  rw [Expr.parse] at hmore
  rw [Expr.parse, Parse.repeated]
  simp [hahead, he, hless, hmore, Parse.prepend]

end Primitive

section Phrases
variable {nested : List Char → Parse}

theorem parse_spacing (b : Blanks) {rest : List Char} (hrest : Stops isSpace rest) :
    spacing.parse nested (b.chars ++ rest) = .done [b.derivation] rest :=
  parse_named _ (parse_run b.blank hrest)

theorem parse_requiredSpacing (g : Gap) {rest : List Char} (hrest : Stops isSpace rest) :
    requiredSpacing.parse nested (g.text ++ rest) = .done [g.derivation] rest :=
  parse_named _ (parse_seq (parse_one g.blank_first _) (parse_run g.blank_more hrest))

theorem parse_requiredSpacing_fail {input : List Char} (h : Stops isSpace input) :
    requiredSpacing.parse nested input = .fail :=
  parse_named_fail _ (parse_seq_fail _ (parse_one_fail h))

theorem isKeyChar_of_isSpace {c : Char} (h : isSpace c = true) : isKeyChar c = false := by
  simp only [isSpace, Bool.or_eq_true, decide_eq_true_eq] at h
  obtain (rfl | rfl) | rfl := h <;> rfl

theorem isKeyChar_ne {c d : Char} (h : isKeyChar c = true) (hd : isKeyChar d = false) :
    c ≠ d := by
  rintro rfl
  rw [h] at hd
  cases hd

theorem startsKeyPart_cons {c : Char} (rest : List Char) (hc : c ≠ '\\') :
    startsKeyPart (c :: rest) = isKeyChar c := by
  unfold startsKeyPart
  split
  · rename_i heq
    cases heq
    exact absurd rfl hc
  · rename_i heq
    cases heq
    rfl
  · rename_i heq
    cases heq

theorem parse_keyPart (p : KeyPart) (rest : List Char) :
    keyPart.parse nested (p.text ++ rest) = .done [p.derivation] rest := by
  cases p with
  | plain c h =>
    have hc : c ≠ '\\' := isKeyChar_ne h rfl
    simp [keyPart, Expr.parse, KeyPart.text, KeyPart.derivation, hc, h]
  | escape c h =>
    have he : escape.parse nested ('\\' :: c :: rest) =
        .done [(KeyPart.escape c h).derivation] rest :=
      parse_named _ (parse_seq (parse_char _ _) (parse_one h rest))
    simpa [keyPart, Expr.parse, KeyPart.text] using he

theorem startsKeyPart_text (p : KeyPart) (rest : List Char) :
    startsKeyPart (p.text ++ rest) = true := by
  cases p with
  | plain c h =>
    rw [← h]
    exact startsKeyPart_cons rest (isKeyChar_ne h rfl)
  | escape c h => exact h

theorem length_keyPart_pos (p : KeyPart) : 0 < p.text.length := by
  cases p <;> simp [KeyPart.text]

theorem parse_keyParts (ps : List KeyPart) {rest : List Char} (hrest : startsKeyPart rest = false) :
    (Expr.many startsKeyPart keyPart).parse nested (ps.flatMap KeyPart.text ++ rest) =
      .done (ps.map KeyPart.derivation) rest := by
  induction ps with
  | nil => exact parse_many_stop (.inl hrest)
  | cons p ps ih =>
    have hpos := length_keyPart_pos p
    rw [List.flatMap_cons, List.append_assoc]
    refine parse_many_step (startsKeyPart_text p _) (parse_keyPart p _) ?_ ih
    simp only [List.length_append]
    omega

theorem parse_key (k : Key) {rest : List Char} (hrest : startsKeyPart rest = false) :
    key.parse nested (k.text ++ rest) = .done [k.derivation] rest := by
  rw [Key.text, List.flatMap_cons, List.append_assoc]
  exact parse_named _ (parse_seq (parse_keyPart k.first _) (parse_keyParts k.more hrest))

/-- A key begins with a backslash or with a character that stands for itself. -/
theorem key_text_eq (k : Key) :
    ∃ c cs, k.text = c :: cs ∧ (c = '\\' ∨ isKeyChar c = true) := by
  obtain ⟨first, more⟩ := k
  cases first with
  | plain c h => exact ⟨c, _, rfl, .inr h⟩
  | escape c h => exact ⟨'\\', _, rfl, .inl rfl⟩

/-- A key does not begin with a character of a class to which neither the backslash nor any
character of a key belongs. -/
theorem stops_key {accepts : Char → Bool} (hback : accepts '\\' = false)
    (hplain : ∀ c, isKeyChar c = true → accepts c = false) (k : Key) (rest : List Char) :
    Stops accepts (k.text ++ rest) := by
  obtain ⟨c, cs, hk, hc⟩ := key_text_eq k
  rw [hk, List.cons_append, stops_cons]
  cases hc with
  | inl hc => rw [hc, hback]
  | inr hc => exact hplain c hc

theorem isSpace_of_isKeyChar {c : Char} (h : isKeyChar c = true) : isSpace c = false := by
  cases hs : isSpace c with
  | false => rfl
  | true =>
    rw [isKeyChar_of_isSpace hs] at h
    cases h

theorem stops_key_char {d : Char} (hback : d ≠ '\\') (hd : isKeyChar d = false) (k : Key)
    (rest : List Char) : Stops (· = d) (k.text ++ rest) :=
  stops_key (by simpa using hback.symm) (fun c hc => by simpa using isKeyChar_ne hc hd) k rest

theorem startsKeyPart_of_isSpace {c : Char} (h : isSpace c = true) (rest : List Char) :
    startsKeyPart (c :: rest) = false := by
  rw [startsKeyPart_cons rest, isKeyChar_of_isSpace h]
  rintro rfl
  cases h

theorem startsKeyPart_blanks (b : Blanks) {rest : List Char} (hrest : startsKeyPart rest = false) :
    startsKeyPart (b.chars ++ rest) = false := by
  obtain ⟨chars, blank⟩ := b
  cases chars with
  | nil => exact hrest
  | cons c cs => exact startsKeyPart_of_isSpace (blank c (List.mem_cons_self ..)) _

theorem startsKeyPart_gap (g : Gap) (rest : List Char) :
    startsKeyPart (g.text ++ rest) = false :=
  startsKeyPart_of_isSpace g.blank_first _

theorem parse_positiveInteger (n : Numeral) {rest : List Char} (hrest : Stops Char.isDigit rest) :
    positiveInteger.parse nested (n.text ++ rest) = .done [n.derivation] rest :=
  parse_named _ (parse_seq (parse_one n.leading _) (parse_run n.digits hrest))

theorem stops_numeral (n : Numeral) (rest : List Char) : Stops isSpace (n.text ++ rest) := by
  have hdigit : n.first.isDigit = true := (Bool.and_eq_true_iff.1 n.leading).1
  rw [Numeral.text, List.cons_append, stops_cons]
  exact isSpace_of_isKeyChar (by rw [isKeyChar, Char.isAlphanum, hdigit, Bool.or_true])

theorem parse_predicateValue (v : Value) {rest : List Char} (hrest : startsKeyPart rest = false) :
    predicateValue.parse nested (v.text ++ rest) = .done [v.derivation] rest := by
  cases v with
  | literal chars h =>
    have hchars : ∀ c ∈ chars, (c ≠ '\'' : Bool) = true := by simpa using h
    refine parse_named _ (parse_alt_first _ (parse_named _ ?_))
    rw [Value.text, List.cons_append, List.append_assoc]
    exact parse_seq (parse_char _ _) (parse_seq (parse_capture (parse_run hchars (by simp)))
      (parse_seq (parse_char _ _) (parse_mark _ _)))
  | rowKey =>
    have hliteral : predicateLiteral.parse nested (Value.rowKey.text ++ rest) = .fail :=
      parse_named_fail _ (parse_seq_fail _ (parse_char_fail (by simp [Value.text])))
    refine parse_named _ ?_
    rw [parse_alt_second _ hliteral]
    exact parse_alt_first _ (parse_named _ (parse_seq (parse_word "@key" rest) (parse_mark _ _)))
  | key k =>
    have hliteral : predicateLiteral.parse nested (k.text ++ rest) = .fail :=
      parse_named_fail _ (parse_seq_fail _ (parse_char_fail
        (stops_key_char (by decide) rfl k rest)))
    have hrow : predicateRowKey.parse nested (k.text ++ rest) = .fail :=
      parse_named_fail _ (parse_seq_fail _ (parse_word_fail_of_stops (by rfl)
        (stops_key_char (by decide) rfl k rest)))
    refine parse_named _ ?_
    rw [Value.text, parse_alt_second _ hliteral, parse_alt_second _ hrow]
    exact parse_named _ (parse_seq (parse_capture (parse_key k hrest)) (parse_mark _ _))

theorem stops_value (v : Value) (rest : List Char) : Stops isSpace (v.text ++ rest) := by
  cases v with
  | literal chars h => exact stops_cons.2 rfl
  | rowKey => exact stops_cons.2 rfl
  | key k => exact stops_key rfl (fun _ => isSpace_of_isKeyChar) k rest

/-- After a value of a comparison comes a comma or the closing parenthesis. -/
theorem laterValues_text_eq (vs : List LaterValue) (rest : List Char) :
    ∃ c cs, vs.flatMap LaterValue.text ++ ')' :: rest = c :: cs ∧ (c = ',' ∨ c = ')') := by
  cases vs with
  | nil => exact ⟨')', rest, rfl, .inr rfl⟩
  | cons v vs => exact ⟨',', _, rfl, .inl rfl⟩

theorem startsKeyPart_laterValues (vs : List LaterValue) (rest : List Char) :
    startsKeyPart (vs.flatMap LaterValue.text ++ ')' :: rest) = false := by
  obtain ⟨c, cs, heq, rfl | rfl⟩ := laterValues_text_eq vs rest <;> rw [heq] <;> rfl

theorem stops_laterValues (vs : List LaterValue) (rest : List Char) :
    Stops isSpace (vs.flatMap LaterValue.text ++ ')' :: rest) := by
  obtain ⟨c, cs, heq, rfl | rfl⟩ := laterValues_text_eq vs rest <;> rw [heq, stops_cons] <;> rfl

theorem parse_laterValues (vs : List LaterValue) (rest : List Char) :
    (Expr.star (.seqAll [.char ',', spacing, predicateValue, spacing])).parse nested
        (vs.flatMap LaterValue.text ++ ')' :: rest) =
      .done (vs.flatMap LaterValue.derivations) (')' :: rest) := by
  induction vs with
  | nil => exact parse_many_stop (.inr (parse_seq_fail _ (parse_char_fail (by simp))))
  | cons v vs ih =>
    have hone : (Expr.seqAll [.char ',', spacing, predicateValue, spacing]).parse nested
        (v.text ++ (vs.flatMap LaterValue.text ++ ')' :: rest)) =
          .done v.derivations (vs.flatMap LaterValue.text ++ ')' :: rest) := by
      simp only [LaterValue.text, List.cons_append, List.append_assoc]
      exact parse_seq (parse_char _ _) (parse_seq (parse_spacing v.before (stops_value v.value _))
        (parse_seq (parse_predicateValue v.value
            (startsKeyPart_blanks v.after (startsKeyPart_laterValues vs rest)))
          (parse_spacing v.after (stops_laterValues vs rest))))
    rw [List.flatMap_cons, List.append_assoc]
    refine parse_many_step rfl hone ?_ ih
    simp only [LaterValue.text, List.length_append, List.length_cons]
    omega

theorem parse_predicateName (name : Comparison) (rest : List Char) :
    predicateName.parse nested (name.name.toList ++ rest) = .done [nameDerivation name] rest := by
  refine parse_named _ (parse_seq (parse_capture ?_) (parse_mark _ _))
  cases name with
  | equal => exact parse_alt_first _ (parse_word _ rest)
  | notEqual =>
    have hequal : (Expr.word Comparison.equal.name).parse nested
        (Comparison.notEqual.name.toList ++ rest) = .fail :=
      parse_word_fail (by simp [Comparison.name])
    rw [parse_alt_second _ hequal]
    exact parse_word _ rest

theorem parse_predicateClause (name : Comparison) (before opening : Blanks) (first : Value)
    (later : List LaterValue) (rest : List Char) :
    predicateClause.parse nested ((Clause.predicate name before opening first later).text ++ rest) =
      .done [.node (.production .predicateClause)
        ([.node (.action .becomePredicate) [], nameDerivation name, before.derivation, .char '(',
            opening.derivation, first.derivation] ++
          (later.flatMap LaterValue.derivations ++ [.char ')']))] rest := by
  simp only [Clause.text, List.append_assoc, List.cons_append, List.nil_append]
  exact parse_named _ (parse_seq (parse_mark _ _) (parse_seq (parse_predicateName name _)
    (parse_seq (parse_spacing before (stops_cons.2 rfl)) (parse_seq (parse_char _ _)
      (parse_seq (parse_spacing opening (stops_value first _))
        (parse_seq (parse_predicateValue first (startsKeyPart_laterValues later rest))
          (parse_seq (parse_laterValues later rest) (parse_char _ _))))))))

theorem parse_predicateClause_fail {input : List Char} (h : Stops (· = 's') input) :
    predicateClause.parse nested input = .fail := by
  have hname : (Expr.capture (.alt (.word Comparison.equal.name)
      (.word Comparison.notEqual.name))).parse nested input = .fail := by
    rw [Expr.parse, parse_alt_second _ (parse_word_fail_of_stops (by rfl) h),
      parse_word_fail_of_stops (by rfl) h, Parse.wrap]
  exact parse_named_fail _ (parse_seq_fail_second (parse_mark _ _)
    (parse_seq_fail _ (parse_named_fail _ (parse_seq_fail _ hname))))

theorem stops_clause (c : Clause) (rest : List Char) : Stops isSpace (c.text ++ rest) := by
  cases c with
  | predicate name before opening first later => cases name <;> exact stops_cons.2 rfl
  | group c before parts => cases c <;> exact stops_cons.2 rfl

def laterClauses : Expr := .star (.seqAll [.char ',', spacing, .clause, spacing])

theorem parse_laterClauses_stop (rest : List Char) :
    laterClauses.parse nested (')' :: rest) = .done [] (')' :: rest) :=
  parse_many_stop (.inr (parse_seq_fail _ (parse_char_fail (by simp))))

/-- One more clause of a group, after which comes a comma or the closing parenthesis. -/
theorem parse_laterClauses_step {before after : Blanks} {c : Clause} {rest end_ : List Char}
    {ts : List Derivation}
    (hc : ∀ rest, Expr.clause.parse nested (c.text ++ rest) = .done [c.derivation] rest)
    (hrest : Stops isSpace rest) (hmore : laterClauses.parse nested rest = .done ts end_) :
    laterClauses.parse nested (',' :: (before.chars ++ (c.text ++ (after.chars ++ rest)))) =
      .done (.char ',' :: before.derivation :: c.derivation :: after.derivation :: ts) end_ := by
  have hone : (Expr.seqAll [.char ',', spacing, .clause, spacing]).parse nested
      (',' :: (before.chars ++ (c.text ++ (after.chars ++ rest)))) =
        .done [.char ',', before.derivation, c.derivation, after.derivation] rest :=
    parse_seq (parse_char _ _) (parse_seq (parse_spacing before (stops_clause c _))
      (parse_seq (hc _) (parse_spacing after hrest)))
  refine parse_many_step rfl hone ?_ hmore
  simp only [List.length_append, List.length_cons]
  omega

theorem parse_parts {before after : Blanks} {c : Clause} {rest end_ : List Char}
    {ts : List Derivation}
    (hc : ∀ rest, Expr.clause.parse nested (c.text ++ rest) = .done [c.derivation] rest)
    (hrest : Stops isSpace rest) (hmore : laterClauses.parse nested rest = .done ts (')' :: end_)) :
    (Expr.seqAll [spacing, .clause, spacing, laterClauses, .char ')']).parse nested
        (before.chars ++ (c.text ++ (after.chars ++ rest))) =
      .done (before.derivation :: c.derivation :: after.derivation :: (ts ++ [.char ')'])) end_ :=
  parse_seq (parse_spacing before (stops_clause c _)) (parse_seq (hc _)
    (parse_seq (parse_spacing after hrest) (parse_seq hmore (parse_char _ _))))

theorem parse_groupClause (c : Connective) (before : Blanks) {parts : Parts} {rest : List Char}
    (h : (Expr.seqAll [spacing, .clause, spacing, laterClauses, .char ')']).parse nested
      (parts.text ++ ')' :: rest) = .done (parts.derivations ++ [.char ')']) rest) :
    (groupClause c).parse nested ((Clause.group c before parts).text ++ rest) =
      .done [.node (.production (.groupClause c))
        (c.name.toList.map .char ++
          ([.node (.action (.becomeGroup c)) [], before.derivation, .char '('] ++
            (parts.derivations ++ [.char ')'])))] rest := by
  simp only [Clause.text, List.append_assoc, List.cons_append, List.nil_append]
  exact parse_named _ (parse_seq (parse_word c.name _) (parse_seq (parse_mark _ _)
    (parse_seq (parse_spacing before (stops_cons.2 rfl)) (parse_seq (parse_char _ _) h))))

theorem parse_groupClause_fail {c : Connective} {d : Char} {ds input : List Char}
    (hname : c.name.toList = d :: ds) (h : Stops (· = d) input) :
    (groupClause c).parse nested input = .fail :=
  parse_named_fail _ (parse_seq_fail _ (parse_word_fail_of_stops hname h))

end Phrases

mutual
/-- A clause is found where it stands, whatever comes after it, if it is not nested too deep. -/
theorem parse_clause : (c : Clause) → (depth : Nat) → c.depth ≤ depth → (rest : List Char) →
    parseClause depth (c.text ++ rest) = .done [c.derivation] rest
  | .predicate name before opening first later, 0, h, rest => absurd h (by simp [Clause.depth])
  | .predicate name before opening first later, depth + 1, h, rest =>
    parse_named _ (parse_seq (parse_mark _ _) (parse_seq
      (parse_alt_first _ (parse_predicateClause name before opening first later rest))
      (parse_mark _ _)))
  | .group c before parts, 0, h, rest => absurd h (by simp [Clause.depth])
  | .group c before parts, depth + 1, h, rest => by
    have hgroup := parse_groupClause c before
      (parse_group_parts parts depth (Nat.le_of_succ_le_succ h) rest)
    have hpredicate : predicateClause.parse (parseClause depth)
        ((Clause.group c before parts).text ++ rest) = .fail :=
      parse_predicateClause_fail (by cases c <;> exact stops_cons.2 rfl)
    -- The word `or` is tried first, so that it must fail where a group under `and` stands.
    have hor : c = .and → (groupClause .or).parse (parseClause depth)
        ((Clause.group c before parts).text ++ rest) = .fail := by
      rintro rfl
      exact parse_groupClause_fail (by rfl) (stops_cons.2 rfl)
    have hchoice := parse_alt_second (.alt (groupClause .or) (groupClause .and)) hpredicate
    cases c with
    | or =>
      rw [parse_alt_first _ hgroup] at hchoice
      exact parse_named _ (parse_seq (parse_mark _ _) (parse_seq hchoice (parse_mark _ _)))
    | and =>
      rw [parse_alt_second _ (hor rfl), hgroup] at hchoice
      exact parse_named _ (parse_seq (parse_mark _ _) (parse_seq hchoice (parse_mark _ _)))

theorem parse_group_parts : (ps : Parts) → (depth : Nat) → ps.depth ≤ depth → (rest : List Char) →
    (Expr.seqAll [spacing, .clause, spacing, laterClauses, .char ')']).parse (parseClause depth)
        (ps.text ++ ')' :: rest) =
      .done (ps.derivations ++ [.char ')']) rest
  | .last before c after, depth, h, rest => by
    simp only [Parts.text, List.append_assoc]
    exact parse_parts (parse_clause c depth h) (stops_cons.2 rfl) (parse_laterClauses_stop rest)
  | .more before c after others, depth, h, rest => by
    simp only [Parts.text, List.append_assoc, List.cons_append]
    exact parse_parts (parse_clause c depth (Nat.le_trans (Nat.le_max_left ..) h))
      (stops_cons.2 rfl)
      (parse_group_later others depth (Nat.le_trans (Nat.le_max_right ..) h) rest)

theorem parse_group_later : (ps : Parts) → (depth : Nat) → ps.depth ≤ depth → (rest : List Char) →
    laterClauses.parse (parseClause depth) (',' :: (ps.text ++ ')' :: rest)) =
      .done (.char ',' :: ps.derivations) (')' :: rest)
  | .last before c after, depth, h, rest => by
    simp only [Parts.text, List.append_assoc]
    exact parse_laterClauses_step (parse_clause c depth h) (stops_cons.2 rfl)
      (parse_laterClauses_stop rest)
  | .more before c after others, depth, h, rest => by
    simp only [Parts.text, List.append_assoc, List.cons_append]
    exact parse_laterClauses_step (parse_clause c depth (Nat.le_trans (Nat.le_max_left ..) h))
      (stops_cons.2 rfl)
      (parse_group_later others depth (Nat.le_trans (Nat.le_max_right ..) h) rest)
end

section Whole
variable {depth : Nat}

theorem parse_whereSection (f : Filter) (h : f.clause.depth ≤ depth) (rest : List Char) :
    (Expr.seq requiredSpacing whereSection).parse (parseClause depth) (f.text ++ rest) =
      .done f.derivations rest := by
  simp only [Filter.text, List.append_assoc]
  exact parse_seq (parse_requiredSpacing f.before (stops_cons.2 rfl))
    (parse_named _ (parse_seq (parse_word "where" _) (parse_seq (parse_mark _ _)
      (parse_seq (parse_requiredSpacing f.after (stops_clause f.clause rest))
        (parse_clause f.clause depth h rest)))))

theorem parse_limit (nested : List Char → Parse) (l : Limit) {rest : List Char}
    (hrest : Stops Char.isDigit rest) :
    (Expr.seq requiredSpacing limit).parse nested (l.text ++ rest) = .done l.derivations rest := by
  simp only [Limit.text, List.append_assoc]
  exact parse_seq (parse_requiredSpacing l.before (stops_cons.2 rfl))
    (parse_named _ (parse_seq (parse_word "limit" _)
      (parse_seq (parse_requiredSpacing l.after (stops_numeral l.numeral rest))
        (parse_seq (parse_capture (parse_positiveInteger l.numeral hrest)) (parse_mark _ _)))))

/-- Without a filter, what comes after the key is not taken for one. -/
theorem parse_whereSection_fail (limit : Option Limit) {nested : List Char → Parse} :
    (Expr.seq requiredSpacing whereSection).parse nested ((limit.map Limit.text).getD []) =
      .fail := by
  cases limit with
  | none => exact parse_seq_fail _ (parse_requiredSpacing_fail (stops_nil _))
  | some l =>
    exact parse_seq_fail_second (parse_requiredSpacing l.before (stops_cons.2 rfl))
      (parse_named_fail _ (parse_seq_fail _ (parse_word_fail_of_stops (by rfl)
        (stops_cons.2 rfl))))

theorem parse_filter (filter : Option Filter) (limit : Option Limit)
    (h : (filter.map (·.clause.depth)).getD 0 ≤ depth) :
    (Expr.opt (.seq requiredSpacing whereSection)).parse (parseClause depth)
        ((filter.map Filter.text).getD [] ++ (limit.map Limit.text).getD []) =
      .done ((filter.map Filter.derivations).getD []) ((limit.map Limit.text).getD []) := by
  cases filter with
  | none => exact parse_opt_none (parse_whereSection_fail limit)
  | some f => exact parse_opt_some (parse_whereSection f h _)

theorem parse_limit? (limit : Option Limit) {nested : List Char → Parse} :
    (Expr.opt (.seq requiredSpacing Grammar.limit)).parse nested ((limit.map Limit.text).getD []) =
      .done ((limit.map Limit.derivations).getD []) [] := by
  cases limit with
  | none => exact parse_opt_none (parse_seq_fail _ (parse_requiredSpacing_fail (stops_nil _)))
  | some l =>
    have h := parse_limit nested l (stops_nil _)
    rw [List.append_nil] at h
    exact parse_opt_some h

/-- What comes after the key of the table cannot belong to it. -/
theorem startsKeyPart_sections (filter : Option Filter) (limit : Option Limit) :
    startsKeyPart ((filter.map Filter.text).getD [] ++ (limit.map Limit.text).getD []) =
      false := by
  cases filter with
  | none =>
    cases limit with
    | none => rfl
    | some l => exact startsKeyPart_gap l.before _
  | some f => exact startsKeyPart_of_isSpace f.before.blank_first _

/-- A sentence is found in its text, if its clauses are not nested too deep. -/
theorem parse_query (s : Sentence) (h : s.depth ≤ depth) :
    query.parse (parseClause depth) s.text = .done [s.derivation] [] := by
  have hkey : key.parse (parseClause depth) _ = _ :=
    parse_key s.key (startsKeyPart_sections s.filter s.limit)
  have hselect : select.parse (parseClause depth)
      ("select".toList ++ (s.gap.text ++ (s.key.text ++
        ((s.filter.map Filter.text).getD [] ++ (s.limit.map Limit.text).getD [])))) =
        .done [s.selectDerivation] [] :=
    parse_named _ (parse_seq (parse_word "select" _) (parse_seq
      (parse_requiredSpacing s.gap (stops_key rfl (fun _ => isSpace_of_isKeyChar) s.key _))
      (parse_seq (parse_named _ (parse_seq (parse_capture hkey) (parse_mark _ _)))
        (parse_seq (parse_filter s.filter s.limit h) (parse_limit? s.limit)))))
  exact parse_named _ (parse_seq (parse_spacing s.lead (stops_cons.2 rfl))
    (parse_seq hselect (parse_seq (parse_mark _ _) (by rfl))))

end Whole
end TableLang.Grammar
