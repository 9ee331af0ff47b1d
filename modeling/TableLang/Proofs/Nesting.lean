import TableLang.Proofs.Grammar.TooDeep
import TableLang.Proofs.Language
import TableLang.Proofs.Match.Depth
import TableLang.Proofs.Width

/-! The bound on the nesting of clauses. Main statements: a text is refused for its nesting exactly
when a clause nested too deep may begin somewhere in it, and at the first such place, unless this is
the end of an overfull text; and raising the bound changes nothing of a text that is read to its end
or goes wrong before. -/
namespace TableLang
open Grammar Grammar.Derivation

/-- At offset `p` of a text a clause nested in `depth` others may begin: no blank comes next, and
what comes before can be continued to a text of the written grammar that has such a clause there. -/
structure MayNest (source : List Char) (depth p : Nat) : Prop where
  noBlank : p = source.length ∨ ∃ c, source[p]? = some c ∧ Rhs.among " \t\n" c = false
  continued : ∃ (more : List Char) (t : Derivation),
    t.Spells (source.take p ++ more) ∧ (depth + 1, p) ∈ t.clauses 0 0

def MayNestFirst (source : List Char) (depth p : Nat) : Prop :=
  MayNest source depth p ∧ ∀ q, MayNest source depth q → p ≤ q

theorem noBlank_iff {source : List Char} {p : Nat} :
    (p = source.length ∨ ∃ c, source[p]? = some c ∧ Rhs.among " \t\n" c = false) ↔
      p ≤ source.length ∧ Stops isSpace (source.drop p) := by
  rw [Stops, List.head?_drop, isSpace_eq]
  constructor
  · rintro (rfl | ⟨c, hc, hblank⟩)
    · simp
    · obtain ⟨hlt, -⟩ := List.getElem?_eq_some_iff.1 hc
      exact ⟨Nat.le_of_lt hlt, by simpa [hc] using hblank⟩
  · rintro ⟨hle, hstops⟩
    obtain heq | hlt := Nat.eq_or_lt_of_le hle
    · exact .inl heq
    · have hget := List.getElem?_eq_getElem hlt
      exact .inr ⟨source[p], hget, hstops _ hget⟩

/-- A text that agrees with a sentence beyond the approach to a depth begins with this approach, and
no blank comes next there. -/
theorem exists_append_approach {s : Sentence} {depth p : Nat} {source more : List Char}
    (hdepth : depth < s.depth) (hle : (s.approach depth).length ≤ p) (hp : p ≤ source.length)
    (htext : s.text = source.take p ++ more) (hstops : Stops isSpace (source.drop p)) :
    ∃ rest, source = s.approach depth ++ rest ∧ Stops isSpace rest := by
  obtain ⟨inner, after, hinner⟩ := Sentence.text_eq_approach hdepth
  have hagree : source.take p ++ more = s.approach depth ++ (inner.text ++ after) :=
    htext.symm.trans hinner
  have hprefix : s.approach depth <+: source.take p := by
    refine List.prefix_of_prefix_length_le ⟨_, hagree.symm⟩ (List.prefix_append ..) ?_
    rwa [List.length_take, Nat.min_eq_left hp]
  obtain ⟨between, hbetween⟩ := hprefix
  rw [← hbetween, List.append_assoc, List.append_cancel_left_eq] at hagree
  refine ⟨between ++ source.drop p, ?_, ?_⟩
  · rw [← List.append_assoc, hbetween, List.take_append_drop]
  · cases between with
    | nil => exact hstops
    | cons c between =>
      -- The next character is the first one of a clause, in the sentence as in the source.
      have hclause := stops_clause inner after
      rw [← hagree] at hclause
      exact hclause

theorem mayNest_of_parse {source rest : List Char} {depth : Nat}
    (h : query.parse (parseClause depth) source = .tooDeep rest) :
    MayNest source depth (source.length - rest.length) := by
  obtain ⟨s, hdepth, rfl, hrest⟩ := parse_query_eq_tooDeep_iff.1 h
  obtain ⟨inner, after, htext⟩ := Sentence.text_eq_approach hdepth
  rw [List.length_append, Nat.add_sub_cancel]
  refine ⟨noBlank_iff.2 ⟨by simp, by simpa using hrest⟩, inner.text ++ after, s.derivation, ?_,
    Sentence.mem_clauses hdepth⟩
  rw [List.take_left, ← htext]
  exact spells_derivation s

/-- Where a clause may begin that is nested too deep, or before, the reading stops for a clause that
is nested too deep. -/
theorem MayNest.exists_tooDeep {source : List Char} {depth depth' p : Nat}
    (h : MayNest source depth' p) (hle : depth ≤ depth') :
    ∃ rest, query.parse (parseClause depth) source = .tooDeep rest ∧
      source.length - rest.length ≤ p := by
  obtain ⟨hp, hstops⟩ := noBlank_iff.1 h.noBlank
  obtain ⟨more, t, ht, hmem⟩ := h.continued
  obtain ⟨s, rfl, htext⟩ := exists_sentence ht
  obtain ⟨q, hq, hmem⟩ :=
    exists_mem_clauses 0 0 (Nat.succ_pos depth) (Nat.succ_le_succ hle) s.derivation hmem
  obtain ⟨hdepth, happroach⟩ := Sentence.approach_le hmem
  obtain ⟨rest, rfl, hrest⟩ :=
    exists_append_approach hdepth (Nat.le_trans happroach hq) hp htext hstops
  refine ⟨rest, parse_query_tooDeep hdepth hrest, ?_⟩
  rw [List.length_append, Nat.add_sub_cancel]
  exact Nat.le_trans happroach hq

/-- Where the reading stops for a clause nested too deep is the first place where one may begin. -/
theorem mayNestFirst_of_parse {source rest : List Char} {depth : Nat}
    (h : query.parse (parseClause depth) source = .tooDeep rest) :
    MayNestFirst source depth (source.length - rest.length) := by
  refine ⟨mayNest_of_parse h, ?_⟩
  intro q hq
  obtain ⟨rest', hrest', hle⟩ := hq.exists_tooDeep (Nat.le_refl depth)
  rw [h] at hrest'
  cases hrest'
  exact hle

theorem MayNest.exists_first {source : List Char} {depth p : Nat} (h : MayNest source depth p) :
    ∃ q, MayNestFirst source depth q := by
  obtain ⟨rest, hparse, -⟩ := h.exists_tooDeep (Nat.le_refl depth)
  exact ⟨_, mayNestFirst_of_parse hparse⟩

theorem MayNest.le_length {source : String} {depth p : Nat} (h : MayNest source.toList depth p) :
    p ≤ source.length := by
  rw [← String.length_toList]
  exact (noBlank_iff.1 h.noBlank).1

theorem MayNestFirst.eq {source : List Char} {depth p q : Nat} (hp : MayNestFirst source depth p)
    (hq : MayNestFirst source depth q) : p = q :=
  Nat.le_antisymm (hp.2 q hq.1) (hq.2 p hp.1)

theorem tokenize_eq_nestingTooDeep_iff {settings : Settings} {source : String} {limit : Nat}
    {position : Position} :
    tokenize settings source = .error (.nestingTooDeep limit position) ↔
      source.length ≤ maxInputLength ∧ limit = settings.maxDepth ∧
        ∃ rest, query.parse (parseClause settings.maxDepth) source.toList = .tooDeep rest ∧
          position = .after (source.toList.take (source.toList.length - rest.length)) := by
  rw [tokenize, Match.tokensOf, ← String.length_toList]
  by_cases hlong : maxInputLength < source.toList.length
  · simp only [if_pos hlong, Nat.not_le.2 hlong, false_and, iff_false]
    simp
  · have hagrees := Match.readQuery_agrees settings source.toList
    generalize query.parse (parseClause settings.maxDepth) source.toList = p at hagrees ⊢
    generalize Match.readQuery settings source.toList = o at hagrees
    rw [if_neg hlong]
    cases hagrees with
    | matched => simp
    | failed => simp [Match.report]
    | @tooDeep offset rest hoffset =>
      have hoffset : offset = source.toList.length - rest.length := by
        simp only [Match.State.initial] at hoffset
        omega
      subst hoffset
      simp only [Nat.le_of_not_lt hlong, Position.ofOffset_eq, true_and, Except.error.injEq,
        ParseError.nestingTooDeep.injEq, Parse.tooDeep.injEq, exists_eq_left', eq_comm]

/-- A text that is not too long is read, goes wrong somewhere, or has a clause nested too deep. -/
theorem tokenize_cases (settings : Settings) {source : String}
    (hlength : source.length ≤ maxInputLength) :
    (∃ tokens, tokenize settings source = .ok tokens) ∨
      (∃ e, tokenize settings source = .error (.mismatch e)) ∨
      ∃ position, tokenize settings source =
        .error (.nestingTooDeep settings.maxDepth position) := by
  rw [tokenize, Match.tokensOf, String.length_toList, if_neg (Nat.not_lt.2 hlength)]
  cases Match.readQuery settings source.toList with
  | matched s => exact .inl ⟨_, rfl⟩
  | failed s => exact .inr (.inl ⟨_, rfl⟩)
  | tooDeep offset => exact .inr (.inr ⟨_, rfl⟩)

/-- A sentence nested too deep is refused at its first clause nested too deep. -/
theorem tokenize_of_depth {settings : Settings} {source : String} {s : Sentence}
    (hlength : source.length ≤ maxInputLength) (htext : s.text = source.toList)
    (hdepth : settings.maxDepth < s.depth) :
    tokenize settings source = .error (.nestingTooDeep settings.maxDepth
      (.after (source.toList.take (s.approach settings.maxDepth).length))) := by
  obtain ⟨inner, after, happroach⟩ := Sentence.text_eq_approach hdepth
  have hparse := parse_query_tooDeep hdepth (stops_clause inner after)
  rw [← happroach, htext] at hparse
  refine tokenize_eq_nestingTooDeep_iff.2 ⟨hlength, rfl, _, hparse, ?_⟩
  rw [← htext, happroach, List.length_append, Nat.add_sub_cancel]

/-- A text of allowed length in which a clause nested deeper than allowed may begin is refused at
the first place where one may. -/
theorem MayNestFirst.tokenize_eq {settings : Settings} {source : String} {p : Nat}
    (h : MayNestFirst source.toList settings.maxDepth p)
    (hlength : source.length ≤ maxInputLength) :
    tokenize settings source =
      .error (.nestingTooDeep settings.maxDepth (.after (source.toList.take p))) := by
  obtain ⟨rest, hparse, -⟩ := h.1.exists_tooDeep (Nat.le_refl _)
  obtain rfl := h.eq (mayNestFirst_of_parse hparse)
  exact tokenize_eq_nestingTooDeep_iff.2 ⟨hlength, rfl, rest, hparse, rfl⟩

theorem exists_mayNestFirst_of_tokenize {settings : Settings} {source : String} {limit : Nat}
    {position : Position}
    (h : tokenize settings source = .error (.nestingTooDeep limit position)) :
    ∃ p, MayNestFirst source.toList settings.maxDepth p ∧
      position = .after (source.toList.take p) := by
  obtain ⟨-, -, rest, hparse, hposition⟩ := tokenize_eq_nestingTooDeep_iff.1 h
  exact ⟨_, mayNestFirst_of_parse hparse, hposition⟩

/-- What is counted up to a place of a text fits into 32 bits, unless that is the end of an overfull
text. -/
theorem passed_fit_of_le {source : String} {p : Nat} (hlength : source.length ≤ maxInputLength)
    (hp : p ≤ source.length) (hend : ¬ (Position.Overfull source.toList ∧ p = source.length)) :
    ∀ q ∈ Position.passed source.toList [p], q.Fits := by
  rw [← String.length_toList] at hlength hp hend
  rw [Position.passed_fit_iff_of_le hlength (by simpa using hp), List.mem_singleton, eq_comm]
  exact hend

/-- A text is refused for its nesting at a place that can be counted in 32 bits exactly when a
clause nested too deep may begin in it, and not only at the end of an overfull text. -/
theorem exists_nestingTooDeep_iff {settings : Settings} {source : String}
    (hlength : source.length ≤ maxInputLength) :
    (∃ position, tokenize settings source =
        .error (.nestingTooDeep settings.maxDepth position) ∧ position.Fits) ↔
      (∃ p, MayNest source.toList settings.maxDepth p) ∧
        ¬ (Position.Overfull source.toList ∧
          MayNestFirst source.toList settings.maxDepth source.length) := by
  constructor
  · intro ⟨position, h, hfits⟩
    obtain ⟨p, hp, rfl⟩ := exists_mayNestFirst_of_tokenize h
    refine ⟨⟨p, hp.1⟩, ?_⟩
    intro ⟨hfull, hlast⟩
    rw [hp.eq hlast, ← String.length_toList, List.take_length] at hfits
    rw [← String.length_toList] at hlength
    exact (Position.fits_after_iff hlength).1 hfits hfull
  · intro ⟨⟨p, hp⟩, hend⟩
    obtain ⟨q, hq⟩ := hp.exists_first
    have hle := hq.1.le_length
    have hfit := passed_fit_of_le hlength hle fun ⟨hfull, hlast⟩ => hend ⟨hfull, hlast ▸ hq⟩
    refine ⟨_, hq.tokenize_eq hlength, hfit _ (Position.mem_passed_iff.2 ?_)⟩
    exact ⟨q, by rwa [String.length_toList], .inr ⟨q, by simp, Nat.le_refl q⟩, rfl⟩

/-- A clause of a sentence begins before its end. -/
theorem Sentence.length_approach_lt {s : Sentence} {depth : Nat} (h : depth < s.depth) :
    (s.approach depth).length < s.text.length := by
  obtain ⟨inner, after, htext⟩ := text_eq_approach h
  have hne : inner.text ≠ [] := by
    cases inner with
    | predicate name before opening first later => cases name <;> exact List.cons_ne_nil _ _
    | group c before parts => cases c <;> exact List.cons_ne_nil _ _
  have hpos := List.length_pos_iff.2 hne
  rw [htext, List.length_append, List.length_append]
  omega

/-- A text of allowed length is refused for its nesting exactly when a clause nested deeper than
allowed may begin somewhere in it, and the place reported is the first such place; its line and its
column, and all that is counted on the way, fit into 32 bits. So a text of the written grammar that
is nested too deep is refused at its first clause nested too deep, and a text that goes wrong before
any such clause is refused for that. The exception is an overfull text with its error at the end,
whose place has a line or a column that does not fit. -/
theorem nestingTooDeep_iff_mayNest (settings : Settings) (source : String)
    (hlength : source.length ≤ maxInputLength) :
    ((∃ position, tokenize settings source =
        .error (.nestingTooDeep settings.maxDepth position) ∧ position.Fits) ↔
      (∃ p, MayNest source.toList settings.maxDepth p) ∧
        ¬ (Position.Overfull source.toList ∧
          MayNestFirst source.toList settings.maxDepth source.length)) ∧
    (∀ p, MayNestFirst source.toList settings.maxDepth p →
      ¬ (Position.Overfull source.toList ∧ p = source.length) →
      tokenize settings source =
          .error (.nestingTooDeep settings.maxDepth (.after (source.toList.take p))) ∧
        ∀ q ∈ Position.passed source.toList [p], q.Fits) ∧
    (∀ t : Derivation, t.Spells source.toList → settings.maxDepth < t.nesting →
      ∃ p, (settings.maxDepth + 1, p) ∈ t.clauses 0 0 ∧
        (∀ q, (settings.maxDepth + 1, q) ∈ t.clauses 0 0 → p ≤ q) ∧
        tokenize settings source =
          .error (.nestingTooDeep settings.maxDepth (.after (source.toList.take p))) ∧
        ∀ q ∈ Position.passed source.toList [p], q.Fits) ∧
    ((∀ p, ¬ MayNest source.toList settings.maxDepth p) →
      (∀ t : Derivation, ¬ t.Spells source.toList) →
      ¬ (Position.Overfull source.toList ∧
        source.length ∈ Match.reported settings source.toList) →
      (∃ e, tokenize settings source = .error (.mismatch e)) ∧
        ∀ q ∈ Position.passed source.toList (Match.reported settings source.toList), q.Fits) := by
  refine ⟨exists_nestingTooDeep_iff hlength, ?_, ?_, ?_⟩
  · intro p hp hend
    exact ⟨hp.tokenize_eq hlength, passed_fit_of_le hlength hp.1.le_length hend⟩
  · intro t ht hdeep
    obtain ⟨s, rfl, htext⟩ := exists_sentence ht
    rw [s.nesting_derivation] at hdeep
    have hlt := Sentence.length_approach_lt hdeep
    rw [htext, String.length_toList] at hlt
    exact ⟨_, Sentence.mem_clauses hdeep, fun q hq => (Sentence.approach_le hq).2,
      tokenize_of_depth hlength htext hdeep,
      passed_fit_of_le hlength (Nat.le_of_lt hlt) fun hend => Nat.ne_of_lt hlt hend.2⟩
  · intro hnone hwrong hend
    constructor
    · obtain ⟨tokens, h⟩ | h | h := tokenize_cases settings hlength
      · obtain ⟨-, s, htext, -, -⟩ := tokenize_eq_ok_iff.1 h
        exact absurd (htext ▸ spells_derivation s) (hwrong s.derivation)
      · exact h
      · obtain ⟨position, hdeep⟩ := h
        obtain ⟨p, hp, -⟩ := exists_mayNestFirst_of_tokenize hdeep
        exact absurd hp.1 (hnone p)
    · rw [← String.length_toList] at hlength hend
      exact (Position.passed_fit_iff_of_le hlength fun _ => Match.le_of_mem_reported).2 hend

theorem nestingTooDeep_iff_mayNest_specimen :
    "select a where or(str_eq(@key,'')) limit 7".length ≤ maxInputLength ∧
      Sentence.specimen.derivation.Spells "select a where or(str_eq(@key,'')) limit 7".toList ∧
      1 < Sentence.specimen.derivation.nesting ∧
      ∃ p, (2, p) ∈ Sentence.specimen.derivation.clauses 0 0 ∧
        (∀ q, (2, q) ∈ Sentence.specimen.derivation.clauses 0 0 → p ≤ q) ∧
        tokenize { maxDepth := 1 } "select a where or(str_eq(@key,'')) limit 7" =
          .error (.nestingTooDeep 1
            (.after ("select a where or(str_eq(@key,'')) limit 7".toList.take p))) ∧
        ∀ q ∈ Position.passed "select a where or(str_eq(@key,'')) limit 7".toList [p], q.Fits := by
  have hlength : "select a where or(str_eq(@key,'')) limit 7".length ≤ maxInputLength := by decide
  have hspells : Sentence.specimen.derivation.Spells
      "select a where or(str_eq(@key,'')) limit 7".toList :=
    Sentence.specimen_text ▸ spells_derivation Sentence.specimen
  have hnesting : 1 < Sentence.specimen.derivation.nesting := by
    rw [Sentence.specimen.nesting_derivation]
    decide
  exact ⟨hlength, hspells, hnesting,
    (nestingTooDeep_iff_mayNest { maxDepth := 1 } _ hlength).2.2.1 _ hspells hnesting⟩

def Sentence.remote (n : Nat) : Sentence where
  lead := .none
  gap := .blank
  key := ⟨.plain 'a' isKeyChar_a, []⟩
  filter := some ⟨.blank, ⟨' ', List.replicate n ' ', isSpace_blank, isSpace_of_mem_blanks⟩,
    .predicate .equal .none .none .rowKey []⟩
  limit := none

theorem Sentence.approach_remote (n : Nat) :
    (remote n).approach 0 = "select a where ".toList ++ List.replicate n ' ' := by
  simp [approach, remote, Filter.approach, Clause.approach, Blanks.none, Gap.blank, Gap.text,
    Key.text, KeyPart.text]

/-- If no clause is allowed, one may begin behind the blanks at the end of a text, and nowhere
before. -/
theorem mayNestFirst_remote (n : Nat) :
    MayNestFirst ("select a where ".toList ++ List.replicate n ' ') 0
      ("select a where ".toList ++ List.replicate n ' ').length := by
  have hparse := parse_query_tooDeep (s := Sentence.remote n) Nat.one_pos (stops_nil isSpace)
  have hfirst := mayNestFirst_of_parse hparse
  rwa [List.append_nil, Sentence.approach_remote] at hfirst

theorem newline_notMem_remote (n : Nat) :
    '\n' ∉ "select a where ".toList ++ List.replicate n ' ' := by
  rw [List.mem_append, not_or]
  exact ⟨by decide, newline_notMem_blanks n⟩

theorem tokenize_remote {n : Nat} {source : String} (hn : 15 + n ≤ maxInputLength)
    (hsource : source.toList = "select a where ".toList ++ List.replicate n ' ') :
    tokenize { maxDepth := 0 } source = .error (.nestingTooDeep 0 ⟨1, 15 + n + 1⟩) := by
  have hlength : source.toList.length = 15 + n := by
    rw [hsource, List.length_append, List.length_replicate]
    rfl
  have hline : '\n' ∉ source.toList := by
    rw [hsource]
    exact newline_notMem_remote n
  have hfirst := mayNestFirst_remote n
  rw [← hsource] at hfirst
  have hrefused : tokenize { maxDepth := 0 } source = _ :=
    hfirst.tokenize_eq (by rwa [← String.length_toList, hlength])
  rw [hrefused, List.take_length, Position.after_of_notMem hline, hlength]

/-- A text of the greatest length that ends where its first clause may begin is refused, if no
clause is allowed, at the column `2 ^ 32`, which does not fit into 32 bits. -/
theorem clause_counted_beyond_width :
    Position.Overfull ("select a where ".toList ++ List.replicate (2 ^ 32 - 16) ' ') ∧
      MayNestFirst ("select a where ".toList ++ List.replicate (2 ^ 32 - 16) ' ') 0
        ("select a where ".toList ++ List.replicate (2 ^ 32 - 16) ' ').length ∧
      tokenize { maxDepth := 0 }
          (String.ofList ("select a where ".toList ++ List.replicate (2 ^ 32 - 16) ' ')) =
        .error (.nestingTooDeep 0 ⟨1, 2 ^ 32⟩) ∧
      ¬ Position.Fits ⟨1, 2 ^ 32⟩ := by
  have hlength : ("select a where ".toList ++ List.replicate (2 ^ 32 - 16) ' ').length =
      maxInputLength := by
    rw [List.length_append, List.length_replicate]
    decide
  exact ⟨⟨hlength, .inl (newline_notMem_remote _)⟩, mayNestFirst_remote _,
    tokenize_remote (by decide) String.toList_ofList, fun h => Nat.lt_irrefl _ h.2⟩

/-- Unless a text is refused for its nesting, a greater bound makes no difference. -/
theorem tokenize_persists (settings : Settings) (source : String) {depth depth' : Nat}
    (hle : depth ≤ depth') :
    (∃ position, tokenize { settings with maxDepth := depth } source =
        .error (.nestingTooDeep depth position)) ∨
      tokenize { settings with maxDepth := depth' } source =
        tokenize { settings with maxDepth := depth } source := by
  have hpersists := Match.readQuery_persists { settings with maxDepth := depth } hle source.toList
  unfold tokenize Match.tokensOf
  by_cases hlong : maxInputLength < source.toList.length
  · rw [if_pos hlong, if_pos hlong]
    exact .inr rfl
  · rw [if_neg hlong, if_neg hlong]
    generalize Match.readQuery { settings with maxDepth := depth } source.toList = o at hpersists
    generalize Match.readQuery { settings with maxDepth := depth' } source.toList = o' at hpersists
    cases hpersists with
    | tooDeep => exact .inl ⟨_, rfl⟩
    | same =>
      cases o with
      | matched s => exact .inr rfl
      | failed s => exact .inr rfl
      | tooDeep offset => exact .inl ⟨_, rfl⟩

end TableLang
