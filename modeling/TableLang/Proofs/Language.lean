import TableLang.Proofs.Grammar.Exact
import TableLang.Proofs.Grammar.Follows
import TableLang.Proofs.Grammar.Shape
import TableLang.Reading

/-! The language that is read. Main statements: a text has tokens exactly when it is derivable in
the written grammar with its clauses nested no deeper than allowed, and its tokens are then the
postorder listing of its derivation, of which there is only one. -/
namespace TableLang
open Grammar Grammar.Derivation

/-- Every sentence is derived from `Query` in the written grammar. -/
theorem spells_derivation (s : Sentence) : s.derivation.Spells s.text where
  derived := by
    have h := parse_derives (parseClause_derives s.depth) query _ _ _
      (parse_query s (Nat.le_refl _))
    exact ((derives_iff_generates s.depth query query_follows _).1 h).1
  text_eq := s.text_derivation

/-- Every derivation of a text from `Query` is that of a sentence. -/
theorem exists_sentence {t : Derivation} {source : List Char} (h : t.Spells source) :
    ∃ s : Sentence, t = s.derivation ∧ s.text = source := by
  have hnesting : nestingAll [t] ≤ t.nesting := by simp [nestingAll]
  obtain ⟨s, hs, -⟩ := derives_query
    ((derives_iff_generates t.nesting query query_follows [t]).2 ⟨h.derived, hnesting⟩)
  obtain rfl : t = s.derivation := List.singleton_inj.1 hs
  exact ⟨s, rfl, s.text_derivation.symm.trans h.text_eq⟩

/-- Two sentences with the same text have the same derivation: the reading finds only one. -/
theorem derivation_eq_of_text_eq {s s' : Sentence} (h : s.text = s'.text) :
    s.derivation = s'.derivation := by
  have hs := parse_query s (Nat.le_max_left s.depth s'.depth)
  have hs' := parse_query s' (Nat.le_max_right s.depth s'.depth)
  rw [h, hs'] at hs
  simpa using hs.symm

theorem tokenize_eq_ok_iff {settings : Settings} {source : String} {tokens : List Token} :
    tokenize settings source = .ok tokens ↔
      source.length ≤ maxInputLength ∧
        ∃ s : Sentence, s.text = source.toList ∧ s.depth ≤ settings.maxDepth ∧
          tokens = s.derivation.tokens 0 := by
  rw [tokenize, Match.tokensOf_eq_ok_iff, String.length_toList]
  refine and_congr_right fun _ => ?_
  constructor
  · rintro ⟨ts, hparse, rfl⟩
    have htext := Match.input_eq_of_parse hparse
    obtain ⟨s, rfl, hdepth⟩ :=
      derives_query (parse_derives (parseClause_derives settings.maxDepth) query _ _ _ hparse)
    exact ⟨s, by simpa [textAll, s.text_derivation] using htext.symm, hdepth, by simp [tokensAll]⟩
  · rintro ⟨s, hs, hdepth, rfl⟩
    refine ⟨[s.derivation], ?_, by simp [tokensAll]⟩
    rw [← hs]
    exact parse_query s hdepth

/-- A text of allowed length has tokens exactly when it can be derived from `Query` in the written
grammar, taken as an ordinary context-free grammar, with its clauses nested no deeper than
allowed. -/
theorem tokenize_ok_iff_derivable (settings : Settings) (source : String)
    (hlength : source.length ≤ maxInputLength) :
    (∃ tokens, tokenize settings source = .ok tokens) ↔
      ∃ t : Derivation, t.Spells source.toList ∧ t.nesting ≤ settings.maxDepth := by
  constructor
  · rintro ⟨tokens, h⟩
    obtain ⟨-, s, hs, hdepth, -⟩ := tokenize_eq_ok_iff.1 h
    refine ⟨s.derivation, ?_, by rwa [s.nesting_derivation]⟩
    rw [← hs]
    exact spells_derivation s
  · rintro ⟨t, ht, hnesting⟩
    obtain ⟨s, rfl, hs⟩ := exists_sentence ht
    rw [s.nesting_derivation] at hnesting
    exact ⟨_, tokenize_eq_ok_iff.2 ⟨hlength, s, hs, hnesting, rfl⟩⟩

theorem tokenize_ok_iff_derivable_group :
    "select a where and(or(str_eq(b,'')))".length ≤ maxInputLength ∧
      ((∃ tokens, tokenize { maxDepth := 2 } "select a where and(or(str_eq(b,'')))" = .ok tokens) ↔
        ∃ t : Derivation, t.Spells "select a where and(or(str_eq(b,'')))".toList ∧ t.nesting ≤ 2) :=
  ⟨by decide, tokenize_ok_iff_derivable { maxDepth := 2 } _ (by decide)⟩

/-- A text has at most one derivation. -/
theorem eq_of_spells {t u : Derivation} {source : List Char} (ht : t.Spells source)
    (hu : u.Spells source) : u = t := by
  obtain ⟨s, rfl, hs⟩ := exists_sentence ht
  obtain ⟨s', rfl, hs'⟩ := exists_sentence hu
  exact derivation_eq_of_text_eq (hs'.trans hs.symm)

def Grammar.Rhs.mentions (p : Production) : Rhs → Bool
  | rule q => q = p
  | capture r => r.mentions p
  | seq q r => q.mentions p || r.mentions p
  | choice q r => q.mentions p || r.mentions p
  | opt r => r.mentions p
  | star r => r.mentions p
  | _ => false

/-- No production refers to `Query`. -/
theorem mentions_query (p : Production) : (rhs p).mentions .query = false := by
  cases p with
  | groupClause c => cases c <;> rfl
  | _ => rfl

theorem label_ne_query {r : Rhs} {ts : List Derivation} (h : Generates r ts)
    (hr : r.mentions .query = false) (start : Nat) :
    ∀ k ∈ tokensAll start ts, k.label ≠ .production .query := by
  induction h generalizing start with
  | empty => simp [tokensAll]
  | one hc => simp [tokensAll, Derivation.tokens]
  | @rule p ts h ih =>
    have hp : p ≠ .query := of_decide_eq_false hr
    intro k hk
    simp only [tokensAll, Derivation.tokens, List.append_nil, List.mem_append,
      List.mem_singleton] at hk
    obtain hk | rfl := hk
    · exact ih (mentions_query p) start k hk
    · simpa using hp
  | mark => simp [tokensAll, Derivation.tokens]
  | capture h ih =>
    intro k hk
    simp only [tokensAll, Derivation.tokens, List.append_nil, List.mem_append,
      List.mem_singleton] at hk
    obtain hk | rfl := hk
    · exact ih hr start k hk
    · simp
  | seq first second ihq ihr =>
    rw [Rhs.mentions, Bool.or_eq_false_iff] at hr
    rw [tokensAll_append]
    intro k hk
    obtain hk | hk := List.mem_append.1 hk
    · exact ihq hr.1 _ k hk
    · exact ihr hr.2 _ k hk
  | choiceFirst h ih => exact ih (Bool.or_eq_false_iff.1 hr).1 start
  | choiceSecond h ih => exact ih (Bool.or_eq_false_iff.1 hr).2 start
  | optNone => simp [tokensAll]
  | optSome h ih => exact ih hr start
  | starNone => simp [tokensAll]
  | starMore first later ihq ihr =>
    rw [tokensAll_append]
    intro k hk
    obtain hk | hk := List.mem_append.1 hk
    · exact ihq hr _ k hk
    · exact ihr hr _ k hk

/-- The tokens of a whole text end in its only token for `Query`, which covers all of it. -/
theorem tokens_of_spells {t : Derivation} {source : List Char} (h : t.Spells source) :
    ∃ earlier, t.tokens 0 = earlier ++ [⟨.production .query, 0, source.length⟩] ∧
      ∀ k ∈ earlier, k.label ≠ .production .query := by
  obtain ⟨derived, text_eq⟩ := h
  cases derived with
  | @rule _ ts hbody =>
    refine ⟨tokensAll 0 ts, ?_, label_ne_query hbody (mentions_query .query) 0⟩
    rw [Derivation.tokens, ← text_eq, Derivation.text, Nat.zero_add]

/-- The tokens of a text are the postorder listing of its derivation, of which there is only one:
one for each production, captured text and action, and nothing of what was tried in vain. The last
token is the only one for `Query`, and it covers the whole text. -/
theorem tokens_eq_postorder (settings : Settings) (source : String) (tokens : List Token)
    (h : tokenize settings source = .ok tokens) :
    ∃ t : Derivation, t.Spells source.toList ∧ (∀ u : Derivation, u.Spells source.toList → u = t) ∧
      tokens = t.tokens 0 ∧
      ∃ earlier, tokens = earlier ++ [⟨.production .query, 0, source.length⟩] ∧
        ∀ k ∈ earlier, k.label ≠ .production .query := by
  obtain ⟨-, s, hs, -, rfl⟩ := tokenize_eq_ok_iff.1 h
  have hspells : s.derivation.Spells source.toList := hs ▸ spells_derivation s
  refine ⟨s.derivation, hspells, fun u hu => eq_of_spells hspells hu, rfl, ?_⟩
  rw [← String.length_toList]
  exact tokens_of_spells hspells

theorem tokens_eq_postorder_specimen :
    tokenize {} "select a where or(str_eq(@key,'')) limit 7" =
        .ok (Sentence.specimen.derivation.tokens 0) ∧
      ∃ t : Derivation, t.Spells "select a where or(str_eq(@key,'')) limit 7".toList ∧
        (∀ u : Derivation,
          u.Spells "select a where or(str_eq(@key,'')) limit 7".toList → u = t) ∧
        Sentence.specimen.derivation.tokens 0 = t.tokens 0 ∧
        ∃ earlier, Sentence.specimen.derivation.tokens 0 =
            earlier ++ [⟨.production .query, 0, 42⟩] ∧
          ∀ k ∈ earlier, k.label ≠ .production .query := by
  have h : tokenize {} "select a where or(str_eq(@key,'')) limit 7" =
      .ok (Sentence.specimen.derivation.tokens 0) :=
    tokenize_eq_ok_iff.2 ⟨by decide, Sentence.specimen, Sentence.specimen_text, by decide, rfl⟩
  exact ⟨h, tokens_eq_postorder {} _ _ h⟩

end TableLang
