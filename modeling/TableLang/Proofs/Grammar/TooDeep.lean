import TableLang.Proofs.Grammar.Approach
import TableLang.Proofs.Grammar.Shape

/-! Where a reading meets a clause that is nested too deep. Main statement: this happens exactly
when the input begins with the approach of some sentence to a clause nested too deep, and at its
end, where the blanks before that clause are over. What comes after makes no difference. -/
namespace TableLang.Grammar
open Sentence

section Forward
variable {nested : List Char → Parse}

theorem parse_seq_tooDeep {e : Expr} (f : Expr) {input rest : List Char}
    (he : e.parse nested input = .tooDeep rest) :
    (Expr.seq e f).parse nested input = .tooDeep rest := by
  rw [Expr.parse, he, Parse.andThen]

theorem parse_seq_tooDeep_second {e f : Expr} {input mid rest : List Char} {ts : List Derivation}
    (he : e.parse nested input = .done ts mid) (hf : f.parse nested mid = .tooDeep rest) :
    (Expr.seq e f).parse nested input = .tooDeep rest := by
  rw [Expr.parse, he, Parse.andThen, hf, Parse.prepend]

theorem parse_named_tooDeep (p : Production) {e : Expr} {input rest : List Char}
    (he : e.parse nested input = .tooDeep rest) :
    (Expr.named p e).parse nested input = .tooDeep rest := by
  rw [Expr.parse, he, Parse.wrap]

theorem parse_opt_tooDeep {e : Expr} {input rest : List Char}
    (he : e.parse nested input = .tooDeep rest) :
    (Expr.opt e).parse nested input = .tooDeep rest := by
  rw [Expr.parse, he, Parse.orElse]
  intro h
  cases h

theorem parse_many_tooDeep {ahead : List Char → Bool} {e : Expr} {input rest : List Char}
    (hahead : ahead input = true) (he : e.parse nested input = .tooDeep rest) :
    (Expr.many ahead e).parse nested input = .tooDeep rest := by
  rw [Expr.parse, Parse.repeated]
  simp [hahead, he]

theorem parse_many_tooDeep_later {ahead : List Char → Bool} {e : Expr} {input mid rest : List Char}
    {ts : List Derivation} (hahead : ahead input = true)
    (he : e.parse nested input = .done ts mid) (hless : mid.length < input.length)
    (hmore : (Expr.many ahead e).parse nested mid = .tooDeep rest) :
    (Expr.many ahead e).parse nested input = .tooDeep rest := by
  rw [Expr.parse] at hmore
  rw [Expr.parse, Parse.repeated]
  simp [hahead, he, hless, hmore, Parse.prepend]

theorem stops_approach (depth : Nat) (c : Clause) {rest : List Char} (h : Stops isSpace rest) :
    Stops isSpace (c.approach depth ++ rest) := by
  cases depth with
  | zero =>
    rw [Clause.approach]
    exact h
  | succ depth =>
    cases c with
    | predicate name before opening first later => exact h
    | group c before parts => cases c <;> exact stops_cons.2 rfl

/-- Where the word of a connective comes next, only a group under it can be meant. -/
theorem parse_clause_choice (c : Connective) (rest : List Char) :
    (Expr.alt predicateClause (.alt (groupClause .or) (groupClause .and))).parse nested
        (c.name.toList ++ rest) = (groupClause c).parse nested (c.name.toList ++ rest) := by
  have hpredicate : predicateClause.parse nested (c.name.toList ++ rest) = .fail :=
    parse_predicateClause_fail (by cases c <;> exact stops_cons.2 rfl)
  rw [parse_alt_second _ hpredicate]
  cases c with
  | or =>
    have hand : (groupClause .and).parse nested (Connective.or.name.toList ++ rest) = .fail :=
      parse_groupClause_fail (by rfl) (stops_cons.2 rfl)
    rw [Expr.parse, hand]
    cases (groupClause .or).parse nested (Connective.or.name.toList ++ rest) <;> rfl
  | and => exact parse_alt_second _ (parse_groupClause_fail (by rfl) (stops_cons.2 rfl))

theorem parse_part_tooDeep {before : Blanks} {c : Clause} {depth : Nat} {rest : List Char}
    (f : Expr) (hrest : Stops isSpace rest)
    (hc : Expr.clause.parse nested (c.approach depth ++ rest) = .tooDeep rest) :
    (Expr.seq spacing (.seq .clause f)).parse nested
      (before.chars ++ (c.approach depth ++ rest)) = .tooDeep rest :=
  parse_seq_tooDeep_second (parse_spacing before (stops_approach depth c hrest))
    (parse_seq_tooDeep _ hc)

end Forward

mutual
/-- Behind the approach to a clause that is nested too deep, the reading stops there. -/
theorem parse_clause_tooDeep : (c : Clause) → (depth : Nat) → depth < c.depth →
    (rest : List Char) → Stops isSpace rest →
    parseClause depth (c.approach depth ++ rest) = .tooDeep rest
  | c, 0, _, rest, _ => by
    rw [Clause.approach]
    rfl
  | .predicate name before opening first later, depth + 1, h, rest, _ => by
    rw [Clause.depth] at h
    omega
  | .group c before parts, depth + 1, h, rest, hrest => by
    have hparts := parse_parts_tooDeep parts depth (Nat.lt_of_succ_lt_succ h) rest hrest
    have hgroup : (groupClause c).parse (parseClause depth)
        (c.name.toList ++ (before.chars ++ ('(' :: (parts.approach depth ++ rest)))) =
          .tooDeep rest :=
      parse_named_tooDeep _ (parse_seq_tooDeep_second (parse_word c.name _)
        (parse_seq_tooDeep_second (parse_mark _ _)
          (parse_seq_tooDeep_second (parse_spacing before (stops_cons.2 rfl))
            (parse_seq_tooDeep_second (parse_char _ _) hparts))))
    rw [← parse_clause_choice] at hgroup
    simp only [Clause.approach, List.append_assoc, List.cons_append]
    exact parse_named_tooDeep _ (parse_seq_tooDeep_second (parse_mark _ _)
      (parse_seq_tooDeep _ hgroup))

theorem parse_parts_tooDeep : (ps : Parts) → (depth : Nat) → depth < ps.depth →
    (rest : List Char) → Stops isSpace rest →
    (Expr.seqAll [spacing, .clause, spacing, laterClauses, .char ')']).parse (parseClause depth)
      (ps.approach depth ++ rest) = .tooDeep rest
  | .last before c after, depth, h, rest, hrest => by
    rw [Parts.approach, List.append_assoc]
    exact parse_part_tooDeep _ hrest (parse_clause_tooDeep c depth h rest hrest)
  | .more before c after others, depth, h, rest, hrest => by
    rw [Parts.depth] at h
    rw [Parts.approach, List.append_assoc]
    by_cases hc : depth < c.depth
    · rw [if_pos hc]
      exact parse_part_tooDeep _ hrest (parse_clause_tooDeep c depth hc rest hrest)
    · have hothers := parse_later_tooDeep others depth (by omega) rest hrest
      simp only [if_neg hc, List.append_assoc, List.cons_append]
      exact parse_seq_tooDeep_second (parse_spacing before (stops_clause c _))
        (parse_seq_tooDeep_second (parse_clause c depth (Nat.le_of_not_lt hc) _)
          (parse_seq_tooDeep_second (parse_spacing after (stops_cons.2 rfl))
            (parse_seq_tooDeep _ hothers)))

theorem parse_later_tooDeep : (ps : Parts) → (depth : Nat) → depth < ps.depth →
    (rest : List Char) → Stops isSpace rest →
    laterClauses.parse (parseClause depth) (',' :: (ps.approach depth ++ rest)) = .tooDeep rest
  | .last before c after, depth, h, rest, hrest => by
    rw [Parts.approach, List.append_assoc]
    exact parse_many_tooDeep rfl (parse_seq_tooDeep_second (parse_char _ _)
      (parse_part_tooDeep _ hrest (parse_clause_tooDeep c depth h rest hrest)))
  | .more before c after others, depth, h, rest, hrest => by
    rw [Parts.depth] at h
    rw [Parts.approach, List.append_assoc]
    by_cases hc : depth < c.depth
    · rw [if_pos hc]
      exact parse_many_tooDeep rfl (parse_seq_tooDeep_second (parse_char _ _)
        (parse_part_tooDeep _ hrest (parse_clause_tooDeep c depth hc rest hrest)))
    · have hothers := parse_later_tooDeep others depth (by omega) rest hrest
      simp only [if_neg hc, List.append_assoc, List.cons_append]
      refine parse_many_tooDeep_later rfl (parse_seq (parse_char _ _)
        (parse_seq (parse_spacing before (stops_clause c _))
          (parse_seq (parse_clause c depth (Nat.le_of_not_lt hc) _)
            (parse_spacing after (stops_cons.2 rfl))))) ?_ hothers
      simp only [List.length_append, List.length_cons]
      omega
end

theorem parse_query_tooDeep {depth : Nat} {s : Sentence} (h : depth < s.depth) {rest : List Char}
    (hrest : Stops isSpace rest) :
    query.parse (parseClause depth) (s.approach depth ++ rest) = .tooDeep rest := by
  obtain ⟨lead, gap, key, filter, limit⟩ := s
  cases filter with
  | none => exact absurd h (Nat.not_lt_zero _)
  | some f =>
    have hsection : (Expr.seq requiredSpacing whereSection).parse (parseClause depth)
        (f.before.text ++ ("where".toList ++ (f.after.text ++ (f.clause.approach depth ++ rest)))) =
          .tooDeep rest :=
      parse_seq_tooDeep_second (parse_requiredSpacing f.before (stops_cons.2 rfl))
        (parse_named_tooDeep _ (parse_seq_tooDeep_second (parse_word "where" _)
          (parse_seq_tooDeep_second (parse_mark _ _)
            (parse_seq_tooDeep_second
              (parse_requiredSpacing f.after (stops_approach depth f.clause hrest))
              (parse_clause_tooDeep f.clause depth h rest hrest)))))
    have hkey : Grammar.key.parse (parseClause depth) _ = _ :=
      parse_key key (startsKeyPart_gap f.before
        ("where".toList ++ (f.after.text ++ (f.clause.approach depth ++ rest))))
    simp only [Sentence.approach, Filter.approach, Option.map_some, Option.getD_some,
      List.append_assoc]
    exact parse_named_tooDeep _ (parse_seq_tooDeep_second (parse_spacing lead (stops_cons.2 rfl))
      (parse_seq_tooDeep _ (parse_named_tooDeep _ (parse_seq_tooDeep_second (parse_word "select" _)
        (parse_seq_tooDeep_second
          (parse_requiredSpacing gap (stops_key rfl (fun _ => isSpace_of_isKeyChar) key _))
          (parse_seq_tooDeep_second
            (parse_named _ (parse_seq (parse_capture hkey) (parse_mark _ _)))
            (parse_seq_tooDeep _ (parse_opt_tooDeep hsection))))))))

namespace Parse

theorem prepend_eq_tooDeep {p : Parse} {ts : List Derivation} {rest : List Char} :
    p.prepend ts = tooDeep rest ↔ p = tooDeep rest := by
  cases p <;> simp [prepend]

theorem andThen_eq_tooDeep {p : Parse} {next : List Char → Parse} {rest : List Char} :
    p.andThen next = tooDeep rest ↔
      p = tooDeep rest ∨ ∃ ts mid, p = done ts mid ∧ next mid = tooDeep rest := by
  cases p with
  | done ts mid =>
    rw [andThen, prepend_eq_tooDeep]
    constructor
    · intro h
      exact .inr ⟨ts, mid, rfl, h⟩
    · rintro (h | ⟨_, _, ⟨⟩, h⟩)
      · cases h
      · exact h
  | fail => simp [andThen]
  | tooDeep mid => simp [andThen]

theorem orElse_eq_tooDeep {p q : Parse} {rest : List Char} :
    p.orElse q = tooDeep rest ↔ p = tooDeep rest ∨ p = fail ∧ q = tooDeep rest := by
  cases p <;> simp [orElse]

theorem wrap_eq_tooDeep {p : Parse} {label : Label} {rest : List Char} :
    p.wrap label = tooDeep rest ↔ p = tooDeep rest := by
  cases p <;> simp [wrap]

end Parse

def Expr.Flat : Expr → Prop
  | seq e f => e.Flat ∧ f.Flat
  | alt e f => e.Flat ∧ f.Flat
  | opt e => e.Flat
  | many _ e => e.Flat
  | ifNext _ e f => e.Flat ∧ f.Flat
  | named _ e => e.Flat
  | capture e => e.Flat
  | clause => False
  | _ => True

namespace Expr

@[simp]
theorem flat_seqAll (es : List Expr) : (seqAll es).Flat ↔ ∀ e ∈ es, e.Flat := by
  induction es with
  | nil => simp [seqAll, Flat]
  | cons e es ih =>
    cases es with
    | nil => simp [seqAll]
    | cons f es => simpa [seqAll, Flat] using fun _ => ih

@[simp]
theorem flat_char (c : Char) : (char c).Flat := trivial

@[simp]
theorem flat_mark (a : Action) : (mark a).Flat := trivial

@[simp]
theorem flat_word (text : String) : (word text).Flat := by
  simp [word]

/-- Without nested clauses nothing is nested too deep. -/
theorem parse_ne_tooDeep {nested : List Char → Parse} {e : Expr} (he : e.Flat)
    (input rest : List Char) : e.parse nested input ≠ .tooDeep rest := by
  induction e generalizing input with
  | empty => simp [parse]
  | one accepts =>
    cases input with
    | nil => simp [parse]
    | cons c input =>
      rw [parse]
      split <;> simp
  | run accepts => simp [parse]
  | finish =>
    rw [parse]
    split <;> simp
  | mark a => simp [parse]
  | seq e f ihe ihf =>
    intro h
    obtain h | ⟨ts, mid, -, h⟩ := Parse.andThen_eq_tooDeep.1 h
    · exact ihe he.1 _ h
    · exact ihf he.2 _ h
  | alt e f ihe ihf =>
    intro h
    obtain h | ⟨-, h⟩ := Parse.orElse_eq_tooDeep.1 h
    · exact ihe he.1 _ h
    · exact ihf he.2 _ h
  | opt e ih =>
    intro h
    obtain h | ⟨-, h⟩ := Parse.orElse_eq_tooDeep.1 h
    · exact ih he _ h
    · cases h
  | many ahead e ih =>
    intro h
    rw [parse] at h
    fun_induction Parse.repeated ahead (e.parse nested) input with
    | case1 input hahead us mid hs hless ihmany => exact ihmany (Parse.prepend_eq_tooDeep.1 h)
    | case2 input hahead us mid hs hless => cases h
    | case3 input hahead hs => cases h
    | case4 input hahead mid hs => exact ih he _ (h ▸ hs)
    | case5 input hahead => cases h
  | ifNext c e f ihe ihf =>
    rw [parse]
    split
    · exact ihe he.1 _
    · exact ihf he.2 _
  | named p e ih => exact fun h => ih he _ (Parse.wrap_eq_tooDeep.1 h)
  | capture e ih => exact fun h => ih he _ (Parse.wrap_eq_tooDeep.1 h)
  | clause => exact he.elim

end Expr

@[simp]
theorem spacing_flat : spacing.Flat := trivial

@[simp]
theorem requiredSpacing_flat : requiredSpacing.Flat := ⟨trivial, trivial⟩

@[simp]
theorem key_flat : key.Flat := by
  simp [key, keyPart, escape, Expr.Flat]

@[simp]
theorem selectKey_flat : selectKey.Flat := by
  simp [selectKey, Expr.Flat]

@[simp]
theorem predicateClause_flat : predicateClause.Flat := by
  simp [predicateClause, predicateName, predicateValue, predicateLiteral, predicateRowKey,
    predicateKey, Expr.star, Expr.Flat]

theorem limit_flat : (Expr.opt (.seq requiredSpacing limit)).Flat := by
  simp [limit, positiveInteger, Expr.Flat]

section Inversion
variable {depth : Nat} {input mid rest : List Char} {ts : List Derivation}

/-- Past an expression without nested clauses it is what follows that is nested too deep. -/
theorem exists_of_seq_tooDeep {e f : Expr} (he : e.Flat)
    (h : (Expr.seq e f).parse (parseClause depth) input = .tooDeep rest) :
    ∃ ts mid, e.parse (parseClause depth) input = .done ts mid ∧
      f.parse (parseClause depth) mid = .tooDeep rest := by
  obtain h | h := Parse.andThen_eq_tooDeep.1 h
  · exact absurd h (Expr.parse_ne_tooDeep he _ _)
  · exact h

theorem derives_of_parse {e : Expr} (h : e.parse (parseClause depth) input = .done ts mid) :
    Derives depth e ts ∧ input = Derivation.textAll ts ++ mid :=
  ⟨parse_derives (parseClause_derives depth) e _ _ _ h, Match.input_eq_of_parse h⟩

theorem input_eq_of_char {c : Char}
    (h : (Expr.char c).parse (parseClause depth) input = .done ts mid) : input = c :: mid := by
  obtain ⟨hderives, hinput⟩ := derives_of_parse h
  rw [hinput, derives_char hderives]
  rfl

theorem input_eq_of_word {text : String}
    (h : (Expr.word text).parse (parseClause depth) input = .done ts mid) :
    input = text.toList ++ mid := by
  obtain ⟨hderives, hinput⟩ := derives_of_parse h
  rw [hinput, derives_word hderives, Derivation.textAll_chars]

theorem input_eq_of_mark {a : Action}
    (h : (Expr.mark a).parse (parseClause depth) input = .done ts mid) : input = mid := by
  cases h
  rfl

/-- A run of characters ends where no more of them come. -/
theorem stops_dropWhile (accepts : Char → Bool) (input : List Char) :
    Stops accepts (input.dropWhile accepts) := by
  induction input with
  | nil => exact stops_nil _
  | cons c input ih =>
    by_cases hc : accepts c = true
    · rwa [List.dropWhile_cons_of_pos hc]
    · rw [List.dropWhile_cons_of_neg hc, stops_cons]
      simpa using hc

theorem exists_of_spacing (h : spacing.parse (parseClause depth) input = .done ts mid) :
    ∃ b : Blanks, input = b.chars ++ mid ∧ Stops isSpace mid := by
  obtain ⟨hderives, hinput⟩ := derives_of_parse h
  obtain ⟨b, rfl⟩ := derives_spacing hderives
  refine ⟨b, by simpa [Derivation.textAll] using hinput, ?_⟩
  obtain ⟨us, hrun, -⟩ := Parse.wrap_eq_done.1 h
  cases hrun
  exact stops_dropWhile isSpace input

theorem exists_of_requiredSpacing
    (h : requiredSpacing.parse (parseClause depth) input = .done ts mid) :
    ∃ g : Gap, input = g.text ++ mid ∧ Stops isSpace mid := by
  obtain ⟨hderives, hinput⟩ := derives_of_parse h
  obtain ⟨g, rfl⟩ := derives_requiredSpacing hderives
  refine ⟨g, by simpa [Derivation.textAll] using hinput, ?_⟩
  obtain ⟨us, hbody, -⟩ := Parse.wrap_eq_done.1 h
  obtain ⟨vs, ws, first, -, hrun, -⟩ := Parse.andThen_eq_done.1 hbody
  cases hrun
  exact stops_dropWhile isSpace first

theorem exists_of_clause (h : Expr.clause.parse (parseClause depth) input = .done ts mid) :
    ∃ c : Clause, c.depth ≤ depth ∧ input = c.text ++ mid := by
  obtain ⟨hderives, hinput⟩ := derives_of_parse h
  obtain ⟨c, rfl, hdepth⟩ := derives_clause depth _ hderives
  exact ⟨c, hdepth, by simpa [Derivation.textAll] using hinput⟩

theorem exists_of_selectKey (h : selectKey.parse (parseClause depth) input = .done ts mid) :
    ∃ k : Key, input = k.text ++ mid := by
  obtain ⟨hderives, hinput⟩ := derives_of_parse h
  obtain ⟨k, rfl⟩ := derives_selectKey hderives
  exact ⟨k, by simpa [Derivation.textAll, Derivation.text] using hinput⟩

section Clauses
variable (hclause : ∀ input rest, Stops isSpace input →
  parseClause depth input = .tooDeep rest →
  ∃ c : Clause, depth < c.depth ∧ input = c.approach depth ++ rest ∧ Stops isSpace rest)
include hclause

/-- What is nested too deep in a part of a group is its clause. -/
theorem exists_of_part_tooDeep {f : Expr}
    (h : (Expr.seq spacing (.seq .clause f)).parse (parseClause depth) input = .tooDeep rest) :
    (∃ (before : Blanks) (c : Clause), depth < c.depth ∧
      input = before.chars ++ (c.approach depth ++ rest) ∧ Stops isSpace rest) ∨
    ∃ (before : Blanks) (c : Clause) (mid : List Char), c.depth ≤ depth ∧
      input = before.chars ++ (c.text ++ mid) ∧
        f.parse (parseClause depth) mid = .tooDeep rest := by
  obtain ⟨_, start, hspacing, hpart⟩ := exists_of_seq_tooDeep spacing_flat h
  obtain ⟨before, hbefore, hstops⟩ := exists_of_spacing hspacing
  obtain hdeep | ⟨_, mid, hdone, hlater⟩ := Parse.andThen_eq_tooDeep.1 hpart
  · obtain ⟨c, hdepth, rfl, hrest⟩ := hclause start rest hstops hdeep
    exact .inl ⟨before, c, hdepth, hbefore, hrest⟩
  · obtain ⟨c, hdepth, rfl⟩ := exists_of_clause hdone
    exact .inr ⟨before, c, mid, hdepth, hbefore, hlater⟩

theorem exists_of_laterClauses_tooDeep
    (h : laterClauses.parse (parseClause depth) input = .tooDeep rest) :
    ∃ ps : Parts, depth < ps.depth ∧ input = ',' :: (ps.approach depth ++ rest) ∧
      Stops isSpace rest := by
  rw [laterClauses, Expr.star, Expr.parse] at h
  -- By induction on the repetition: parts that were read come before the part that is too deep.
  fun_induction Parse.repeated _ _ input with
  | case1 input hahead us mid hstep hless ih =>
    obtain ⟨ps, hdepth, rfl, hrest⟩ := ih (Parse.prepend_eq_tooDeep.1 h)
    obtain ⟨_, _, _, hcomma, hstep, -⟩ := Parse.andThen_eq_done.1 hstep
    obtain ⟨_, _, _, hbefore, hstep, -⟩ := Parse.andThen_eq_done.1 hstep
    obtain ⟨_, _, _, hc, hafter, -⟩ := Parse.andThen_eq_done.1 hstep
    obtain ⟨before, rfl, -⟩ := exists_of_spacing hbefore
    obtain ⟨c, hle, rfl⟩ := exists_of_clause hc
    obtain ⟨after, rfl, -⟩ := exists_of_spacing hafter
    refine ⟨.more before c after ps, Nat.lt_of_lt_of_le hdepth (Nat.le_max_right ..), ?_, hrest⟩
    rw [input_eq_of_char hcomma]
    simp [Parts.approach, Nat.not_lt.2 hle]
  | case2 input hahead us mid hstep hless => cases h
  | case3 input hahead hstep => cases h
  | case4 input hahead mid hstep =>
    cases h
    obtain ⟨_, start, hcomma, hstep⟩ := exists_of_seq_tooDeep (Expr.flat_char ',') hstep
    rw [input_eq_of_char hcomma]
    obtain ⟨before, c, hdepth, rfl, hrest⟩ | ⟨_, _, _, _, _, h⟩ :=
      exists_of_part_tooDeep hclause hstep
    · exact ⟨.last before c .none, hdepth, by simp [Parts.approach], hrest⟩
    · exact absurd h (Expr.parse_ne_tooDeep spacing_flat _ _)
  | case5 input hahead => cases h

theorem exists_of_groupClause_tooDeep {c : Connective}
    (h : (groupClause c).parse (parseClause depth) input = .tooDeep rest) :
    ∃ g : Clause, depth + 1 < g.depth ∧ input = g.approach (depth + 1) ++ rest ∧
      Stops isSpace rest := by
  obtain ⟨_, _, hword, h₁⟩ :=
    exists_of_seq_tooDeep (Expr.flat_word c.name) (Parse.wrap_eq_tooDeep.1 h)
  obtain ⟨_, _, hmark, h₂⟩ := exists_of_seq_tooDeep (Expr.flat_mark _) h₁
  obtain ⟨_, _, hspacing, h₃⟩ := exists_of_seq_tooDeep spacing_flat h₂
  obtain ⟨_, _, hopen, h₄⟩ := exists_of_seq_tooDeep (Expr.flat_char '(') h₃
  obtain ⟨before, hbefore, -⟩ := exists_of_spacing hspacing
  rw [input_eq_of_word hword, input_eq_of_mark hmark, hbefore, input_eq_of_char hopen]
  obtain ⟨lead, first, hdepth, hlead, hrest⟩ | ⟨lead, first, mid, hle, hlead, h₅⟩ :=
    exists_of_part_tooDeep hclause h₄
  · rw [hlead]
    exact ⟨.group c before (.last lead first .none), Nat.succ_lt_succ hdepth,
      by simp [Clause.approach, Parts.approach], hrest⟩
  · obtain ⟨_, _, htrail, h₆⟩ := exists_of_seq_tooDeep spacing_flat h₅
    obtain ⟨trail, htrail, -⟩ := exists_of_spacing htrail
    obtain hdeep | ⟨_, _, -, hclose⟩ := Parse.andThen_eq_tooDeep.1 h₆
    · obtain ⟨ps, hdepth, hps, hrest⟩ := exists_of_laterClauses_tooDeep hclause hdeep
      rw [hlead, htrail, hps]
      refine ⟨.group c before (.more lead first trail ps),
        Nat.succ_lt_succ (Nat.lt_of_lt_of_le hdepth (Nat.le_max_right ..)), ?_, hrest⟩
      simp [Clause.approach, Parts.approach, Nat.not_lt.2 hle]
    · exact absurd hclose (Expr.parse_ne_tooDeep (Expr.flat_char ')') _ _)

theorem exists_of_whereClause_tooDeep
    (h : whereClause.parse (parseClause depth) input = .tooDeep rest) :
    ∃ c : Clause, depth + 1 < c.depth ∧ input = c.approach (depth + 1) ++ rest ∧
      Stops isSpace rest := by
  obtain ⟨_, _, hmark, h₁⟩ :=
    exists_of_seq_tooDeep (Expr.flat_mark _) (Parse.wrap_eq_tooDeep.1 h)
  rw [input_eq_of_mark hmark]
  obtain hchoice | ⟨_, _, -, hleave⟩ := Parse.andThen_eq_tooDeep.1 h₁
  · obtain hpredicate | ⟨-, hgroup⟩ := Parse.orElse_eq_tooDeep.1 hchoice
    · exact absurd hpredicate (Expr.parse_ne_tooDeep predicateClause_flat _ _)
    · obtain hor | ⟨-, hand⟩ := Parse.orElse_eq_tooDeep.1 hgroup
      · exact exists_of_groupClause_tooDeep hclause hor
      · exact exists_of_groupClause_tooDeep hclause hand
  · cases hleave

end Clauses

theorem exists_of_clause_tooDeep (depth : Nat) (input rest : List Char)
    (hinput : Stops isSpace input) (h : parseClause depth input = .tooDeep rest) :
    ∃ c : Clause, depth < c.depth ∧ input = c.approach depth ++ rest ∧ Stops isSpace rest := by
  induction depth generalizing input rest with
  | zero =>
    cases h
    refine ⟨.predicate .equal .none .none .rowKey [], by simp [Clause.depth], ?_, hinput⟩
    simp [Clause.approach]
  | succ depth ih => exact exists_of_whereClause_tooDeep ih h

theorem exists_of_select_tooDeep (lead : Blanks)
    (h : select.parse (parseClause depth) input = .tooDeep rest) :
    ∃ s : Sentence, depth < s.depth ∧ lead.chars ++ input = s.approach depth ++ rest ∧
      Stops isSpace rest := by
  obtain ⟨_, _, hword, h₁⟩ :=
    exists_of_seq_tooDeep (Expr.flat_word "select") (Parse.wrap_eq_tooDeep.1 h)
  obtain ⟨_, _, hgap, h₂⟩ := exists_of_seq_tooDeep requiredSpacing_flat h₁
  obtain ⟨_, _, hkey, h₃⟩ := exists_of_seq_tooDeep selectKey_flat h₂
  obtain ⟨gap, hgap, -⟩ := exists_of_requiredSpacing hgap
  obtain ⟨k, hkey⟩ := exists_of_selectKey hkey
  rw [input_eq_of_word hword, hgap, hkey]
  obtain hfilter | ⟨_, _, -, hlimit⟩ := Parse.andThen_eq_tooDeep.1 h₃
  · obtain hsome | ⟨-, hnone⟩ := Parse.orElse_eq_tooDeep.1 hfilter
    · obtain ⟨_, _, hbefore, h₄⟩ := exists_of_seq_tooDeep requiredSpacing_flat hsome
      obtain ⟨_, _, hwhere, h₅⟩ :=
        exists_of_seq_tooDeep (Expr.flat_word "where") (Parse.wrap_eq_tooDeep.1 h₄)
      obtain ⟨_, _, hmark, h₆⟩ := exists_of_seq_tooDeep (Expr.flat_mark _) h₅
      obtain ⟨_, _, hafter, h₇⟩ := exists_of_seq_tooDeep requiredSpacing_flat h₆
      obtain ⟨before, hbefore, -⟩ := exists_of_requiredSpacing hbefore
      obtain ⟨after, hafter, hstops⟩ := exists_of_requiredSpacing hafter
      obtain ⟨c, hdepth, hc, hrest⟩ := exists_of_clause_tooDeep depth _ _ hstops h₇
      rw [hbefore, input_eq_of_word hwhere, input_eq_of_mark hmark, hafter, hc]
      refine ⟨⟨lead, gap, k, some ⟨before, after, c⟩, none⟩, hdepth, ?_, hrest⟩
      simp [Sentence.approach, Filter.approach]
    · cases hnone
  · exact absurd hlimit (Expr.parse_ne_tooDeep limit_flat _ _)

/-- A query has a clause nested too deep exactly when the input begins with an approach to such a
clause, at the end of which the blanks are over. -/
theorem parse_query_eq_tooDeep_iff :
    query.parse (parseClause depth) input = .tooDeep rest ↔
      ∃ s : Sentence, depth < s.depth ∧ input = s.approach depth ++ rest ∧ Stops isSpace rest := by
  constructor
  · intro h
    obtain ⟨_, _, hlead, h₁⟩ := exists_of_seq_tooDeep spacing_flat (Parse.wrap_eq_tooDeep.1 h)
    obtain ⟨lead, hlead, -⟩ := exists_of_spacing hlead
    obtain hselect | ⟨_, _, -, hend⟩ := Parse.andThen_eq_tooDeep.1 h₁
    · rw [hlead]
      exact exists_of_select_tooDeep lead hselect
    · have hflat : (Expr.seqAll [.mark .chooseSelect, .finish]).Flat := ⟨trivial, trivial⟩
      exact absurd hend (Expr.parse_ne_tooDeep hflat _ _)
  · rintro ⟨s, hdepth, rfl, hrest⟩
    exact parse_query_tooDeep hdepth hrest

end Inversion

end TableLang.Grammar
