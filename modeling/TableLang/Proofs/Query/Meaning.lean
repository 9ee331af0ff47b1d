import TableLang.Proofs.Draft.Build
import TableLang.Proofs.Language
import TableLang.Proofs.Text.Numeral

/-! What sentences mean. The meaning of a sentence is read off its phrases; reading its text,
building the draft and compiling it come to the same. Main statements: the queries that texts
describe are the meanings of sentences, and the only thing that can be wrong with a sentence is that
its limit is too large. -/
namespace TableLang

namespace Sentence

def comparisonOf (name : Comparison) (vs : List Value) : Predicate :=
  ⟨name, vs.filterMap Value.key?, vs.filterMap Value.literal?, vs.any Value.isRowKey⟩

mutual
def Clause.condition : Clause → Condition
  | .predicate name _ _ first later =>
    .predicate (comparisonOf name (first :: later.map LaterValue.value))
  | .group c _ parts => .group c parts.conditions

def Parts.conditions : Parts → List Condition
  | .last _ clause _ => [clause.condition]
  | .more _ clause _ others => clause.condition :: others.conditions
end

def limitValue (s : Sentence) : Nat :=
  (s.limit.map fun l => Text.decimalValue l.numeral.text).getD 0

structure Means (s : Sentence) (q : Query) : Prop where
  operation : q.operation = .select
  /-- The key is that of the text, with its escapes as they are written. -/
  tableKey : q.tableKey = String.ofList s.key.text
  body : q.body = .select ⟨s.limitValue, s.filter.map fun f => f.clause.condition⟩

mutual
def Clause.tree (id : Nat) : Clause → Tree (Nat × ClauseDraft)
  | .predicate name before opening first later =>
    .node (id, (Clause.predicate name before opening first later).draft id) []
  | .group c before parts =>
    .node (id, (Clause.group c before parts).draft id) (parts.trees (id + 1))

def Parts.trees (id : Nat) : Parts → List (Tree (Nat × ClauseDraft))
  | .last _ clause _ => [clause.tree id]
  | .more _ clause _ others => clause.tree id :: others.trees (id + clause.size)
end

mutual
theorem Clause.depth_le_size : (c : Clause) → c.depth ≤ c.size
  | .predicate .. => Nat.le_refl 1
  | .group _ _ parts => Nat.succ_le_succ (Parts.depth_le_size parts)

theorem Parts.depth_le_size : (ps : Parts) → ps.depth ≤ ps.size
  | .last _ clause _ => Clause.depth_le_size clause
  | .more _ clause _ others => by
    have hclause := Clause.depth_le_size clause
    have hothers := Parts.depth_le_size others
    rw [Parts.depth, Parts.size]
    omega
end

section Subtree
variable {d : Draft}

theorem Clause.getElem?_clauses {before after : List ClauseDraft} (c : Clause)
    (h : d.clauses.toList = before ++ (c.drafts before.length ++ after)) :
    d.clauses[before.length]? = some (c.draft before.length) := by
  rw [← Array.getElem?_toList, h]
  cases c <;> simp [Clause.drafts]

mutual
/-- A clause is found again as a tree where its drafts stand. -/
theorem Clause.subtree?_drafts (depth : Nat) (before after : List ClauseDraft) :
    (c : Clause) → c.depth ≤ depth →
    d.clauses.toList = before ++ (c.drafts before.length ++ after) →
    d.subtree? depth before.length = some (c.tree before.length)
  | .predicate name blanks opening first later, hdepth, hclauses => by
    rw [Clause.depth] at hdepth
    obtain ⟨depth, rfl⟩ := Nat.exists_eq_add_of_le' hdepth
    have hget := Clause.getElem?_clauses _ hclauses
    simp [Draft.subtree?, hget, Clause.draft, Clause.tree]
  | .group c blanks parts, hdepth, hclauses => by
    rw [Clause.depth] at hdepth
    obtain ⟨depth, rfl⟩ := Nat.exists_eq_add_of_le' (Nat.le_of_add_left_le hdepth)
    have hget := Clause.getElem?_clauses _ hclauses
    -- The clauses of the group stand right behind the draft of the group itself.
    have hparts := Parts.subtrees_drafts depth
      (before ++ [(Clause.group c blanks parts).draft before.length]) after parts
      (Nat.le_of_succ_le_succ hdepth) (by simpa [Clause.drafts] using hclauses)
    rw [List.length_append, List.length_singleton] at hparts
    simp [Draft.subtree?, hget, Clause.draft, Clause.tree, hparts]

theorem Parts.subtrees_drafts (depth : Nat) (before after : List ClauseDraft) :
    (ps : Parts) → ps.depth ≤ depth →
    d.clauses.toList = before ++ (ps.drafts before.length ++ after) →
    (ps.ids before.length).mapM (d.subtree? depth) = some (ps.trees before.length)
  | .last blanks clause blanks', hdepth, hclauses => by
    have hclause := Clause.subtree?_drafts depth before after clause hdepth hclauses
    simp [Parts.ids, Parts.trees, hclause]
  | .more blanks clause blanks' others, hdepth, hclauses => by
    rw [Parts.depth] at hdepth
    rw [Parts.drafts, List.append_assoc] at hclauses
    have hclause := Clause.subtree?_drafts depth before _ clause (by omega) hclauses
    have hothers := Parts.subtrees_drafts depth (before ++ clause.drafts before.length) after others
      (by omega) (by simpa using hclauses)
    rw [List.length_append, Clause.length_drafts] at hothers
    simp [Parts.ids, Parts.trees, hclause, hothers]
end

def Filter.tree (id : Nat) (f : Filter) : Tree (Nat × ClauseDraft) :=
  .node (id, rootDraft id) [f.clause.tree (id + 1)]

theorem Filter.clauseTree?_drafts (before : List ClauseDraft) (f : Filter)
    (h : d.clauses.toList = before ++ f.drafts before.length) :
    d.clauseTree? before.length = some (f.tree before.length) := by
  have hsize : d.clauses.size = before.length + f.clause.size + 1 := by
    rw [← Array.length_toList, h]
    simp [Filter.drafts, Nat.add_assoc]
  have hget : d.clauses[before.length]? = some (rootDraft before.length) := by
    rw [← Array.getElem?_toList, h]
    simp [Filter.drafts]
  -- There are more clauses than clauses nested in each other, so that the depth suffices.
  have hclause := Clause.subtree?_drafts (d := d) (before.length + f.clause.size)
    (before ++ [rootDraft before.length]) [] f.clause
    (Nat.le_trans f.clause.depth_le_size (Nat.le_add_left ..)) (by simp [h, Filter.drafts])
  rw [List.length_append, List.length_singleton] at hclause
  rw [Draft.clauseTree?, hsize]
  simp [Draft.subtree?, hget, rootDraft, hclause, Filter.tree]

end Subtree

mutual
/-- The tree of a clause is compiled to the condition that the clause states. -/
theorem Clause.ofTree_tree (id : Nat) :
    (c : Clause) → Condition.ofTree (c.tree id) = .ok c.condition
  | .predicate name before opening first later => by
    have hname : Comparison.ofName? name.name = some name := by cases name <;> rfl
    have hkind : ClauseKind.ofName? ClauseKind.predicate.name = some .predicate := rfl
    simp [Clause.tree, Clause.draft, Condition.ofTree, hkind, PredicateDraft.compile,
      predicateDraft, hname, Clause.condition, comparisonOf]
  | .group c before parts => by
    have hkind : ClauseKind.ofName? c.name = some (.group c) := by cases c <;> rfl
    simp [Clause.tree, Clause.draft, Condition.ofTree, hkind,
      Parts.ofForest_trees (id + 1) 0 parts, Clause.condition]

theorem Parts.ofForest_trees (id index : Nat) :
    (ps : Parts) → Condition.ofForest index (ps.trees id) = .ok ps.conditions
  | .last before clause after => by
    simp [Parts.trees, Condition.ofForest, Clause.ofTree_tree id clause, Parts.conditions]
  | .more before clause after others => by
    simp [Parts.trees, Condition.ofForest, Clause.ofTree_tree id clause,
      Parts.ofForest_trees (id + clause.size) (index + 1) others, Parts.conditions]
end

theorem Numeral.isDigit_of_mem (n : Numeral) : ∀ c ∈ n.text, c.isDigit = true := by
  have hfirst : n.first.isDigit = true := (Bool.and_eq_true_iff.1 n.leading).1
  simpa [Numeral.text, hfirst] using n.digits

theorem compileLimit_fill (s : Sentence) :
    (s.fill {}).compileLimit =
      if s.limitValue < 2 ^ 64 then .ok s.limitValue
      else .error (.badLimit (s.fill {}).limit .tooLarge) := by
  obtain ⟨lead, gap, key, filter, limit⟩ := s
  cases limit with
  | none => rfl
  | some l =>
    have hread := Text.readNumeral_eq (by simp [Numeral.text]) l.numeral.isDigit_of_mem
    have hne : String.ofList l.numeral.text ≠ "" := by simp [Numeral.text]
    simp only [Draft.compileLimit, fill, limitValue, Option.map_some, Option.getD_some, hne,
      if_false, String.toList_ofList, hread]
    by_cases hfits : Text.decimalValue l.numeral.text < 2 ^ 64
    · simp only [hfits, if_true]
    · simp only [hfits, if_false]

theorem compileCondition_fill (s : Sentence) :
    (s.fill {}).compileCondition = .ok (s.filter.map fun f => f.clause.condition) := by
  obtain ⟨lead, gap, key, filter, limit⟩ := s
  cases filter with
  | none => rfl
  | some f =>
    have hroot : (fill ⟨lead, gap, key, some f, limit⟩ {}).root = some 0 := rfl
    have htree : (fill ⟨lead, gap, key, some f, limit⟩ {}).clauseTree? 0 = some (f.tree 0) :=
      Filter.clauseTree?_drafts [] f (by simp [fill, Filter.fill])
    have hcondition : Condition.ofRoot (f.tree 0) = .ok f.clause.condition :=
      f.clause.ofTree_tree 1
    simp [Draft.compileCondition, hroot, htree, hcondition]

theorem compile_fill (s : Sentence) :
    (s.fill {}).compile =
      if s.limitValue < 2 ^ 64 then
        .ok ⟨String.ofList s.key.text,
          .select ⟨s.limitValue, s.filter.map fun f => f.clause.condition⟩, s.fill {}⟩
      else .error (.inSelect (.badLimit (s.fill {}).limit .tooLarge)) := by
  have hcommand : Operation.ofName? (s.fill {}).command = some .select := rfl
  have hselection : (s.fill {}).compileSelection =
      if s.limitValue < 2 ^ 64 then
        .ok ⟨s.limitValue, s.filter.map fun f => f.clause.condition⟩
      else .error (.badLimit (s.fill {}).limit .tooLarge) := by
    rw [Draft.compileSelection, s.compileLimit_fill, s.compileCondition_fill]
    by_cases hfits : s.limitValue < 2 ^ 64
    · rw [if_pos hfits, if_pos hfits]
      rfl
    · rw [if_neg hfits, if_neg hfits]
      rfl
  rw [Draft.compile, hcommand, hselection]
  by_cases hfits : s.limitValue < 2 ^ 64
  · rw [if_pos hfits, if_pos hfits]
    rfl
  · rw [if_neg hfits, if_neg hfits]

theorem means_of_compile {s : Sentence} {q : Query} (h : (s.fill {}).compile = .ok q) :
    s.limitValue < 2 ^ 64 ∧ s.Means q := by
  rw [s.compile_fill] at h
  by_cases hfits : s.limitValue < 2 ^ 64
  · rw [if_pos hfits] at h
    cases h
    exact ⟨hfits, rfl, rfl, rfl⟩
  · rw [if_neg hfits] at h
    cases h

/-- The draft of a sentence is not compiled exactly when the sentence has a limit and the limit is
too large. -/
theorem compile_eq_error_iff {s : Sentence} {e : CompileError} :
    (s.fill {}).compile = .error e ↔
      ∃ l, s.limit = some l ∧ 2 ^ 64 ≤ Text.decimalValue l.numeral.text ∧
        e = .inSelect (.badLimit (String.ofList l.numeral.text) .tooLarge) := by
  obtain ⟨lead, gap, key, filter, limit⟩ := s
  rw [compile_fill]
  cases limit with
  | none =>
    have hzero : limitValue ⟨lead, gap, key, filter, none⟩ = 0 := rfl
    rw [hzero, if_pos (by decide)]
    simp
  | some l =>
    have hvalue : limitValue ⟨lead, gap, key, filter, some l⟩ =
        Text.decimalValue l.numeral.text := rfl
    have htext : (fill ⟨lead, gap, key, filter, some l⟩ {}).limit =
        String.ofList l.numeral.text := rfl
    rw [hvalue, htext]
    by_cases hfits : Text.decimalValue l.numeral.text < 2 ^ 64
    · rw [if_pos hfits]
      constructor
      · intro h
        cases h
      · rintro ⟨l', hl', hlarge, -⟩
        cases hl'
        exact absurd hfits (Nat.not_lt.2 hlarge)
    · rw [if_neg hfits]
      constructor
      · intro h
        cases h
        exact ⟨l, rfl, Nat.le_of_not_lt hfits, rfl⟩
      · rintro ⟨l', hl', -, rfl⟩
        cases hl'
        rfl

end Sentence

open Grammar

variable {settings : Settings} {source : String}

theorem parseQuery_of_text {s : Sentence} (hlength : source.length ≤ maxInputLength)
    (htext : s.text = source.toList) (hdepth : s.depth ≤ settings.maxDepth) :
    parseQuery settings source = (s.fill {}).compile.mapError .compile := by
  have htokens := tokenize_eq_ok_iff.2 ⟨hlength, s, htext, hdepth, rfl⟩
  have hreplay := s.replay_tokens {}
  rw [htext] at hreplay
  simp only [parseQuery, parse, htokens, hreplay]
  cases (s.fill {}).compile <;> rfl

/-- A text without tokens is at fault itself; any other is the text of a sentence, and all that is
left is to compile the draft of the sentence. -/
theorem parseQuery_cases (settings : Settings) (source : String) :
    (∃ e, tokenize settings source = .error e ∧ parseQuery settings source = .error (.parse e)) ∨
      ∃ s : Sentence, source.length ≤ maxInputLength ∧ s.text = source.toList ∧
        s.depth ≤ settings.maxDepth ∧
        parseQuery settings source = (s.fill {}).compile.mapError .compile := by
  cases htokens : tokenize settings source with
  | error e => exact .inl ⟨e, rfl, by simp only [parseQuery, parse, htokens]⟩
  | ok tokens =>
    obtain ⟨hlength, s, htext, hdepth, -⟩ := tokenize_eq_ok_iff.1 htokens
    exact .inr ⟨s, hlength, htext, hdepth, parseQuery_of_text hlength htext hdepth⟩

theorem exists_means_of_parseQuery {q : Query} (h : parseQuery settings source = .ok q) :
    ∃ s : Sentence, source.length ≤ maxInputLength ∧ s.derivation.Spells source.toList ∧
      s.depth ≤ settings.maxDepth ∧ s.limitValue < 2 ^ 64 ∧ s.Means q := by
  obtain ⟨e, -, he⟩ | ⟨s, hlength, htext, hdepth, hs⟩ := parseQuery_cases settings source
  · rw [he] at h
    cases h
  · rw [hs] at h
    cases hcompile : (s.fill {}).compile with
    | error e =>
      rw [hcompile] at h
      cases h
    | ok q' =>
      rw [hcompile] at h
      cases h
      obtain ⟨hlimit, hmeans⟩ := Sentence.means_of_compile hcompile
      exact ⟨s, hlength, htext ▸ spells_derivation s, hdepth, hlimit, hmeans⟩

/-- A query means what the grammar says. Every derivation of a text is that of a sentence; a
sentence of allowed length whose clauses are nested no deeper than allowed and whose limit fits into
64 bits is understood as what it means; and every query that a text describes is the meaning of such
a sentence with that text. -/
theorem parseQuery_means (settings : Settings) (source : String) :
    (∀ t : Derivation, t.Spells source.toList → ∃ s : Sentence, t = s.derivation) ∧
      (∀ s : Sentence, s.derivation.Spells source.toList → source.length ≤ maxInputLength →
        s.depth ≤ settings.maxDepth → s.limitValue < 2 ^ 64 →
        ∃ q, parseQuery settings source = .ok q ∧ s.Means q) ∧
      ∀ q, parseQuery settings source = .ok q →
        ∃ s : Sentence, source.length ≤ maxInputLength ∧ s.derivation.Spells source.toList ∧
          s.depth ≤ settings.maxDepth ∧ s.limitValue < 2 ^ 64 ∧ s.Means q := by
  refine ⟨?_, ?_, fun q hq => exists_means_of_parseQuery hq⟩
  · intro t ht
    obtain ⟨s, hs, -⟩ := exists_sentence ht
    exact ⟨s, hs⟩
  · intro s hs hlength hdepth hlimit
    have hcompile := s.compile_fill
    rw [if_pos hlimit] at hcompile
    refine ⟨_, ?_, (Sentence.means_of_compile hcompile).2⟩
    rw [parseQuery_of_text hlength (s.text_derivation.symm.trans hs.text_eq) hdepth, hcompile]
    rfl

theorem parseQuery_means_specimen :
    Sentence.specimen.derivation.Spells "select a where or(str_eq(@key,'')) limit 7".toList ∧
      ∃ q, parseQuery {} "select a where or(str_eq(@key,'')) limit 7" = .ok q ∧
        q.operation = .select ∧ q.tableKey = "a" ∧
        q.body = .select ⟨7, some (.group .or [.predicate ⟨.equal, [], [""], true⟩])⟩ := by
  have hspells := Sentence.specimen_text ▸ spells_derivation Sentence.specimen
  obtain ⟨q, hq, hmeans⟩ := (parseQuery_means {} "select a where or(str_eq(@key,'')) limit 7").2.1
    Sentence.specimen hspells (by decide) (by decide) (by decide)
  exact ⟨hspells, q, hq, hmeans.operation, hmeans.tableKey, hmeans.body⟩

theorem parseQuery_of_long (h : maxInputLength < source.length) :
    parseQuery settings source = .error (.parse (.inputTooLong source.length)) := by
  have htokens : tokenize settings source = .error (.inputTooLong source.length) := by
    rw [tokenize, Match.tokensOf, String.length_toList, if_pos h]
  simp only [parseQuery, parse, htokens]

def Sentence.lengthy (n : Nat) : Sentence where
  lead := .none
  gap := .blank
  key := ⟨.plain 'a' isKeyChar_a, List.replicate n (.plain 'a' isKeyChar_a)⟩
  filter := none
  limit := none

theorem Sentence.text_lengthy (n : Nat) :
    (lengthy n).text = "select ".toList ++ List.replicate (n + 1) 'a' := by
  have hkey : (lengthy n).key.text = List.replicate (n + 1) 'a' := by
    simp [lengthy, Key.text, KeyPart.text, List.flatMap_replicate, List.replicate_succ]
  have hrest : (lengthy n).text = "select ".toList ++ (lengthy n).key.text := by
    simp [text, lengthy, Blanks.none, Gap.blank, Gap.text]
  rw [hrest, hkey]

/-- A sentence that is longer by one character than is allowed is refused, though nothing is nested
in it and it has no limit. -/
theorem lengthy_sentence_refused :
    (Sentence.lengthy (2 ^ 32 - 8)).derivation.Spells
        (String.ofList ("select ".toList ++ List.replicate (2 ^ 32 - 7) 'a')).toList ∧
      (Sentence.lengthy (2 ^ 32 - 8)).depth = 0 ∧
      (Sentence.lengthy (2 ^ 32 - 8)).limitValue = 0 ∧
      parseQuery {} (String.ofList ("select ".toList ++ List.replicate (2 ^ 32 - 7) 'a')) =
        .error (.parse (.inputTooLong (2 ^ 32))) := by
  have htext := Sentence.text_lengthy (2 ^ 32 - 8)
  have hlength : (String.ofList ("select ".toList ++ List.replicate (2 ^ 32 - 7) 'a')).length =
      2 ^ 32 := by
    rw [String.length_ofList, List.length_append, List.length_replicate]
    decide
  have hlong : maxInputLength <
      (String.ofList ("select ".toList ++ List.replicate (2 ^ 32 - 7) 'a')).length := by
    rw [hlength]
    decide
  refine ⟨?_, rfl, rfl, ?_⟩
  · rw [String.toList_ofList]
    exact htext ▸ spells_derivation (Sentence.lengthy (2 ^ 32 - 8))
  · rw [parseQuery_of_long hlong, hlength]

theorem depth_eq_of_text_eq {s s' : Sentence} (h : s.text = s'.text) : s.depth = s'.depth := by
  rw [← s.nesting_derivation, ← s'.nesting_derivation, derivation_eq_of_text_eq h]

/-- The grammar and the meaning of words agree on everything but the size of the limit: what has
tokens is compiled unless it has a limit of 2 ^ 64 or more, and then the limit is reported as it is
written. A limit that is compiled is the number that its digits denote. -/
theorem compile_error_iff_limit_too_large (settings : Settings) (source : String) :
    (∀ e : CompileError, parseQuery settings source = .error (.compile e) ↔
      (∃ tokens, tokenize settings source = .ok tokens) ∧
        ∃ (s : Sentence) (l : Sentence.Limit), s.derivation.Spells source.toList ∧
          s.limit = some l ∧ 2 ^ 64 ≤ Text.decimalValue l.numeral.text ∧
          e = .inSelect (.badLimit (String.ofList l.numeral.text) .tooLarge)) ∧
      ∀ q, parseQuery settings source = .ok q →
        ∃ (s : Sentence) (selection : Selection), s.derivation.Spells source.toList ∧
          q.body = .select selection ∧ selection.limit = s.limitValue := by
  refine ⟨fun e => ⟨fun h => ?_, ?_⟩, fun q hq => ?_⟩
  · obtain ⟨e', -, he'⟩ | ⟨s, hlength, htext, hdepth, hs⟩ := parseQuery_cases settings source
    · rw [he'] at h
      cases h
    · have hcompile : (s.fill {}).compile = .error e := by
        rw [hs] at h
        cases hc : (s.fill {}).compile with
        | error e' =>
          rw [hc] at h
          cases h
          rfl
        | ok q =>
          rw [hc] at h
          cases h
      obtain ⟨l, hl, hlarge, he⟩ := Sentence.compile_eq_error_iff.1 hcompile
      exact ⟨⟨_, tokenize_eq_ok_iff.2 ⟨hlength, s, htext, hdepth, rfl⟩⟩, s, l,
        htext ▸ spells_derivation s, hl, hlarge, he⟩
  · rintro ⟨⟨tokens, htokens⟩, s, l, hs, hl, hlarge, he⟩
    have htext := s.text_derivation.symm.trans hs.text_eq
    -- The tokens are those of some sentence with this text, which is nested as deep as `s`.
    obtain ⟨hlength, s', htext', hdepth, -⟩ := tokenize_eq_ok_iff.1 htokens
    have hdepth' := depth_eq_of_text_eq (htext.trans htext'.symm) ▸ hdepth
    rw [parseQuery_of_text hlength htext hdepth',
      Sentence.compile_eq_error_iff.2 ⟨l, hl, hlarge, he⟩]
    rfl
  · obtain ⟨s, -, hs, -, -, hmeans⟩ := exists_means_of_parseQuery hq
    exact ⟨s, _, hs, hmeans.body, rfl⟩

def Sentence.excessive : Sentence where
  lead := .none
  gap := .blank
  key := ⟨.plain 'b' rfl, []⟩
  filter := none
  limit := some ⟨.blank, .blank, ⟨'1', "8446744073709551616".toList, rfl, by simp⟩⟩

theorem compile_error_iff_limit_too_large_excessive :
    parseQuery {} "select b limit 18446744073709551616" =
      .error (.compile (.inSelect (.badLimit "18446744073709551616" .tooLarge))) := by
  have htext : Sentence.excessive.text = "select b limit 18446744073709551616".toList := by decide
  have htokens : tokenize {} "select b limit 18446744073709551616" = .ok _ :=
    tokenize_eq_ok_iff.2 ⟨by decide, Sentence.excessive, htext, Nat.zero_le _, rfl⟩
  exact ((compile_error_iff_limit_too_large {} "select b limit 18446744073709551616").1 _).2
    ⟨⟨_, htokens⟩, Sentence.excessive, _, htext ▸ spells_derivation Sentence.excessive, rfl,
      by decide, rfl⟩

end TableLang
