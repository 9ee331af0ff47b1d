import TableLang.Proofs.Query.Meaning

/-! Replaying a text into a draft that is already in use. The clauses of the text come to stand
behind the ones that are there, just as they stand in a draft of their own but for a shift of all
indices, and what the text does not speak of stays as it is. In a draft of its own the indices are
the numbers of the clauses in preorder. -/
namespace TableLang

def ClauseDraft.shift (offset : Nat) (c : ClauseDraft) : ClauseDraft :=
  { c with children := c.children.map (· + offset) }

namespace Sentence

theorem Parts.ids_add (offset : Nat) :
    (id : Nat) → (ps : Parts) → ps.ids (id + offset) = (ps.ids id).map (· + offset)
  | id, .last before clause after => rfl
  | id, .more before clause after others => by
    have hnext : id + offset + clause.size = id + clause.size + offset := by omega
    rw [Parts.ids, hnext, Parts.ids_add offset (id + clause.size) others, Parts.ids, List.map_cons]

theorem Clause.draft_add (offset id : Nat) (c : Clause) :
    c.draft (id + offset) = (c.draft id).shift offset := by
  cases c with
  | predicate name before opening first later => rfl
  | group c before parts =>
    have hfirst : id + offset + 1 = id + 1 + offset := by omega
    simp only [Clause.draft, ClauseDraft.shift, hfirst, Parts.ids_add]

mutual
/-- The drafts of a clause depend on its index only by a shift. -/
theorem Clause.drafts_add (offset id : Nat) :
    (c : Clause) → c.drafts (id + offset) = (c.drafts id).map (·.shift offset)
  | .predicate name before opening first later => rfl
  | .group c before parts => by
    have hfirst : id + offset + 1 = id + 1 + offset := by omega
    rw [Clause.drafts, Clause.draft_add, hfirst, Parts.drafts_add offset (id + 1) parts,
      Clause.drafts, List.map_cons]

theorem Parts.drafts_add (offset id : Nat) :
    (ps : Parts) → ps.drafts (id + offset) = (ps.drafts id).map (·.shift offset)
  | .last before clause after => Clause.drafts_add offset id clause
  | .more before clause after others => by
    have hnext : id + offset + clause.size = id + clause.size + offset := by omega
    rw [Parts.drafts, Clause.drafts_add offset id clause, hnext,
      Parts.drafts_add offset (id + clause.size) others, Parts.drafts, List.map_append]
end

theorem Filter.drafts_eq_shift (offset : Nat) (f : Filter) :
    f.drafts offset = (f.drafts 0).map (·.shift offset) := by
  have hclause := f.clause.drafts_add offset 1
  rw [Nat.add_comm] at hclause
  rw [Filter.drafts, Filter.drafts, hclause, List.map_cons, Nat.zero_add]
  simp [rootDraft, ClauseDraft.shift, Nat.add_comm]

mutual
/-- Going through a clause in preorder, the indices count up from its own. -/
theorem Clause.ids_preorder (id : Nat) :
    (c : Clause) → (c.tree id).preorder.map Prod.fst = List.range' id c.size
  | .predicate name before opening first later => rfl
  | .group c before parts => by
    rw [Clause.tree, Tree.preorder, List.map_cons, Parts.ids_preorder (id + 1) parts, Clause.size,
      List.range'_succ]

theorem Parts.ids_preorder (id : Nat) :
    (ps : Parts) → (Tree.preorderForest (ps.trees id)).map Prod.fst = List.range' id ps.size
  | .last before clause after => by
    simp [Parts.trees, Tree.preorderForest, Clause.ids_preorder id clause, Parts.size]
  | .more before clause after others => by
    rw [Parts.trees, Tree.preorderForest, List.map_append, Clause.ids_preorder id clause,
      Parts.ids_preorder (id + clause.size) others, Parts.size, List.range'_append_1]
end

/-- The clauses that the draft of a sentence refers to are all its clauses, in the order in which
they stand. -/
theorem ids_reachable_fill (s : Sentence) :
    (s.fill {}).reachable.map Prod.fst = List.range (s.fill {}).clauses.size := by
  obtain ⟨lead, gap, key, filter, limit⟩ := s
  cases filter with
  | none => rfl
  | some f =>
    have hroot : (fill ⟨lead, gap, key, some f, limit⟩ {}).root = some 0 := rfl
    have hclauses : (fill ⟨lead, gap, key, some f, limit⟩ {}).clauses.toList = f.drafts 0 := by
      simp [fill, Filter.fill]
    have hsize : (fill ⟨lead, gap, key, some f, limit⟩ {}).clauses.size = f.clause.size + 1 := by
      rw [← Array.length_toList, hclauses, Filter.drafts, List.length_cons, Clause.length_drafts]
    have htree : (fill ⟨lead, gap, key, some f, limit⟩ {}).clauseTree? 0 = some (f.tree 0) :=
      Filter.clauseTree?_drafts [] f hclauses
    simp only [Draft.reachable, hroot, Option.bind_some, htree, hsize]
    rw [Filter.tree, Tree.preorder, List.map_cons, Tree.preorderForest, Tree.preorderForest,
      List.append_nil, f.clause.ids_preorder, List.range_eq_range', List.range'_succ]

/-- What has become of the draft `d` in `e`, when `own` is what the sentence makes of an empty
draft. -/
structure Relocated (s : Sentence) (own d e : Draft) : Prop where
  command : e.command = "select"
  tableKey : e.tableKey = String.ofList s.key.text
  limit_some : ∀ l, s.limit = some l → e.limit = String.ofList l.numeral.text
  limit_none : s.limit = none → e.limit = d.limit
  rows : e.rows = d.rows
  /-- Clauses that were there are as they were. -/
  kept : ∀ id, id < d.clauses.size → e.clauses[id]? = d.clauses[id]?
  filter_none : s.filter = none →
    e.root = d.root ∧ e.path = d.path ∧ e.clauses = d.clauses
  filter_some : ∀ f, s.filter = some f →
    e.root = some d.clauses.size ∧ e.path = [d.clauses.size] ∧
      e.clauses = d.clauses ++ own.clauses.map (·.shift d.clauses.size)

theorem relocated_fill (s : Sentence) (d : Draft) : s.Relocated (s.fill {}) d (s.fill d) := by
  obtain ⟨lead, gap, key, filter, limit⟩ := s
  refine ⟨rfl, rfl, ?_, ?_, ?_, ?_, ?_, ?_⟩
  · rintro l ⟨⟩
    rfl
  · rintro ⟨⟩
    rfl
  · cases filter <;> rfl
  · intro id hid
    cases filter with
    | none => rfl
    | some f => exact Array.getElem?_append_left hid
  · rintro ⟨⟩
    exact ⟨rfl, rfl, rfl⟩
  · rintro f ⟨⟩
    refine ⟨rfl, rfl, ?_⟩
    simp [fill, Filter.fill, f.drafts_eq_shift d.clauses.size]

end Sentence

/-- The tokens of a text can be replayed into any draft, also into one that is being filled in, and
fill it in as they fill in an empty one: the query becomes a selection with the key of the text, the
limit is replaced if the text has one, rows and old clauses stay, and the clauses of the text are
appended with their indices moved up behind the old ones. The indices in the draft that the text
describes by itself are the numbers of its clauses in preorder, none left out. -/
theorem replay_relocates (settings : Settings) (source : String) (tokens : List Token) (d : Draft)
    (h : tokenize settings source = .ok tokens) :
    ∃ (s : Sentence) (own e : Draft), s.derivation.Spells source.toList ∧
      parse settings source = .ok own ∧ d.replay tokens source.toList = .ok e ∧
      s.Relocated own d e ∧ own.reachable.map Prod.fst = List.range own.clauses.size := by
  obtain ⟨hlength, s, htext, hdepth, rfl⟩ := tokenize_eq_ok_iff.1 h
  have hreplay := fun d => s.replay_tokens d
  rw [htext] at hreplay
  have hparse : parse settings source = .ok (s.fill {}) := by
    simp only [parse, h, hreplay]
  exact ⟨s, s.fill {}, s.fill d, htext ▸ spells_derivation s, hparse, hreplay d,
    s.relocated_fill d, s.ids_reachable_fill⟩

def Draft.begun : Draft where
  limit := "5"
  root := some 0
  clauses := #[{ command := "and", children := [1] }, {}]
  path := [1, 0]

theorem replay_relocates_begun :
    Draft.applyAll {} [.setLimit "5", .openRoot, .enterClause] = .ok Draft.begun ∧
      tokenize {} "select a where or(str_eq(@key,'')) limit 7" =
        .ok (Sentence.specimen.derivation.tokens 0) ∧
      ∃ (s : Sentence) (own e : Draft),
        s.derivation.Spells "select a where or(str_eq(@key,'')) limit 7".toList ∧
        parse {} "select a where or(str_eq(@key,'')) limit 7" = .ok own ∧
        Draft.begun.replay (Sentence.specimen.derivation.tokens 0)
          "select a where or(str_eq(@key,'')) limit 7".toList = .ok e ∧
        s.Relocated own Draft.begun e ∧
        own.reachable.map Prod.fst = List.range own.clauses.size := by
  have h : tokenize {} "select a where or(str_eq(@key,'')) limit 7" =
      .ok (Sentence.specimen.derivation.tokens 0) :=
    tokenize_eq_ok_iff.2 ⟨by decide, Sentence.specimen, Sentence.specimen_text, by decide, rfl⟩
  exact ⟨rfl, h, replay_relocates {} _ _ Draft.begun h⟩

end TableLang
