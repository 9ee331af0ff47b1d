import TableLang.Proofs.Query.Meaning

/-! From queries back to drafts. A draft that a text describes can be put together again from its
query: the root is there exactly if there is a condition, the clauses stand in the order in which
they are met, and the text of the limit is the only one for its number. Main statement: two texts
describe the same draft exactly when their queries do the same. -/
namespace TableLang

def Body.selection? : Body → Option Selection
  | select s => some s
  | join _ => none

def Predicate.draft (p : Predicate) : PredicateDraft :=
  ⟨p.comparison.name, p.keys, p.literals, p.usesRowKey⟩

namespace Condition

mutual
def size : Condition → Nat
  | group _ parts => sizeAll parts + 1
  | predicate _ => 1

def sizeAll : List Condition → Nat
  | [] => 0
  | c :: cs => c.size + sizeAll cs
end

def ids (id : Nat) : List Condition → List Nat
  | [] => []
  | c :: cs => id :: ids (id + c.size) cs

mutual
def drafts (id : Nat) : Condition → List ClauseDraft
  | group c parts => { command := c.name, children := ids (id + 1) parts } ::
      draftsAll (id + 1) parts
  | predicate p => [{ command := ClauseKind.predicate.name, predicate := some p.draft }]

def draftsAll (id : Nat) : List Condition → List ClauseDraft
  | [] => []
  | c :: cs => c.drafts id ++ draftsAll (id + c.size) cs
end

end Condition

def Selection.limitText (s : Selection) : String :=
  (s.rowLimit.map toString).getD ""

/-- The draft of a selection whose clauses were begun one after the other. -/
def Draft.ofSelection (tableKey : String) (s : Selection) : Draft where
  command := Operation.select.name
  tableKey := tableKey
  limit := s.limitText
  root := s.condition.map fun _ => 0
  clauses := ((s.condition.map fun c => Sentence.rootDraft 0 :: c.drafts 1).getD []).toArray
  path := (s.condition.map fun _ => [0]).getD []

namespace Sentence

mutual
@[simp]
theorem Clause.size_condition : (c : Clause) → c.condition.size = c.size
  | .predicate .. => rfl
  | .group _ _ parts => by
    rw [Clause.condition, Condition.size, Parts.sizeAll_conditions parts, Clause.size]

@[simp]
theorem Parts.sizeAll_conditions : (ps : Parts) → Condition.sizeAll ps.conditions = ps.size
  | .last _ clause _ => by
    simp [Parts.conditions, Parts.size, Condition.sizeAll, Clause.size_condition clause]
  | .more _ clause _ others => by
    simp [Parts.conditions, Parts.size, Condition.sizeAll, Clause.size_condition clause,
      Parts.sizeAll_conditions others]
end

theorem Parts.ids_conditions (id : Nat) : (ps : Parts) → Condition.ids id ps.conditions = ps.ids id
  | .last _ _ _ => rfl
  | .more _ clause _ others => by
    simp [Parts.conditions, Condition.ids, Parts.ids, ids_conditions _ others]

mutual
/-- The drafts of a clause are those for the condition that it states. -/
theorem Clause.drafts_condition (id : Nat) : (c : Clause) → c.condition.drafts id = c.drafts id
  | .predicate .. => rfl
  | .group _ _ parts => by
    rw [Clause.condition, Condition.drafts, Parts.ids_conditions, Parts.draftsAll_conditions,
      Clause.drafts, Clause.draft]

theorem Parts.draftsAll_conditions (id : Nat) :
    (ps : Parts) → Condition.draftsAll id ps.conditions = ps.drafts id
  | .last _ clause _ => by
    simp [Parts.conditions, Condition.draftsAll, Parts.drafts, Clause.drafts_condition _ clause]
  | .more _ clause _ others => by
    simp [Parts.conditions, Condition.draftsAll, Parts.drafts, Clause.drafts_condition _ clause,
      Parts.draftsAll_conditions _ others]
end

def selection (s : Sentence) : Selection :=
  ⟨s.limitValue, s.filter.map fun f => f.clause.condition⟩

theorem Numeral.toDigits_text (n : Numeral) :
    0 < Text.decimalValue n.text ∧ Nat.toDigits 10 (Text.decimalValue n.text) = n.text := by
  have hleading := n.leading
  rw [Grammar.isLeadingDigit, Bool.and_eq_true, decide_eq_true_eq] at hleading
  exact Text.toDigits_decimalValue hleading.1 hleading.2 n.digits

/-- The text of the limit of a sentence is the only one for its number, and no limit is 0. -/
theorem limitText_selection (s : Sentence) : s.selection.limitText = (s.fill {}).limit := by
  obtain ⟨lead, gap, key, filter, limit⟩ := s
  cases limit with
  | none => rfl
  | some l =>
    obtain ⟨hpos, hdigits⟩ := l.numeral.toDigits_text
    have hlimit : (selection ⟨lead, gap, key, filter, some l⟩).rowLimit =
        some (Text.decimalValue l.numeral.text) := if_pos hpos
    have htext : toString (Text.decimalValue l.numeral.text) = String.ofList l.numeral.text :=
      congrArg String.ofList hdigits
    rw [Selection.limitText, hlimit, Option.map_some, htext]
    rfl

/-- What a sentence makes of an empty draft depends on its key and on what it selects alone. -/
theorem fill_eq_ofSelection (s : Sentence) :
    s.fill {} = .ofSelection (String.ofList s.key.text) s.selection := by
  have hlimit := s.limitText_selection
  obtain ⟨lead, gap, key, filter, limit⟩ := s
  rw [Draft.ofSelection, hlimit]
  cases filter with
  | none => rfl
  | some f => simp [fill, Filter.fill, Filter.drafts, selection, f.clause.drafts_condition]

end Sentence

theorem parse_eq_ok_iff {settings : Settings} {source : String} {d : Draft} :
    parse settings source = .ok d ↔
      source.length ≤ maxInputLength ∧
        ∃ s : Sentence, s.text = source.toList ∧ s.depth ≤ settings.maxDepth ∧
          d = s.fill {} := by
  constructor
  · intro h
    cases htokens : tokenize settings source with
    | error e =>
      simp only [parse, htokens] at h
      cases h
    | ok tokens =>
      obtain ⟨hlength, s, htext, hdepth, rfl⟩ := tokenize_eq_ok_iff.1 htokens
      have hreplay := s.replay_tokens {}
      rw [htext] at hreplay
      simp only [parse, htokens, hreplay] at h
      cases h
      exact ⟨hlength, s, htext, hdepth, rfl⟩
  · rintro ⟨hlength, s, htext, hdepth, rfl⟩
    have htokens := tokenize_eq_ok_iff.2 ⟨hlength, s, htext, hdepth, rfl⟩
    have hreplay := s.replay_tokens {}
    rw [htext] at hreplay
    simp only [parse, htokens, hreplay]

/-- The draft that a text describes is put together again from its query. -/
theorem eq_ofSelection_of_parse {settings : Settings} {source : String} {d : Draft} {q : Query}
    (hd : parse settings source = .ok d) (hq : d.compile = .ok q) :
    ∃ s, q.body.selection? = some s ∧ d = .ofSelection q.tableKey s := by
  obtain ⟨-, s, -, -, rfl⟩ := parse_eq_ok_iff.1 hd
  have hmeans := (Sentence.means_of_compile hq).2
  refine ⟨s.selection, ?_, ?_⟩
  · rw [hmeans.body]
    rfl
  · rw [s.fill_eq_ofSelection, hmeans.tableKey]

/-- Two texts whose drafts are compiled describe the same draft, with the same clauses at the same
indices and all that was open still open, exactly when their queries have the same operation, the
same table and the same selection. -/
theorem draft_eq_iff_selection_eq (settings settings' : Settings) (source source' : String)
    (d d' : Draft) (q q' : Query) (hd : parse settings source = .ok d)
    (hd' : parse settings' source' = .ok d') (hq : d.compile = .ok q)
    (hq' : d'.compile = .ok q') :
    (q.operation = q'.operation ∧ q.tableKey = q'.tableKey ∧
      q.body.selection? = q'.body.selection?) ↔ d = d' := by
  obtain ⟨s, hs, hdraft⟩ := eq_ofSelection_of_parse hd hq
  obtain ⟨s', hs', hdraft'⟩ := eq_ofSelection_of_parse hd' hq'
  constructor
  · rintro ⟨-, hkey, hselection⟩
    rw [hs, hs', Option.some.injEq] at hselection
    rw [hdraft, hdraft', hkey, hselection]
  · rintro rfl
    cases hq.symm.trans hq'
    exact ⟨rfl, rfl, rfl⟩

namespace Sentence

def Blanks.line : Blanks := ⟨['\n'], by simp [Grammar.isSpace]⟩

theorem quoteless_nil : ∀ c ∈ ([] : List Char), c ≠ '\'' := by simp

def spaced : Sentence :=
  { specimen with
    lead := .line
    filter := some ⟨.blank, .blank, .group .or .line (.last .line
      (.predicate .equal .none .none .rowKey [⟨.line, .literal [] quoteless_nil, .line⟩]) .none)⟩ }

theorem spaced_text :
    spaced.text = "\nselect a where or\n(\nstr_eq(@key,\n''\n)) limit 7".toList := by decide

end Sentence

theorem draft_eq_iff_selection_eq_spaced :
    ∃ (d d' : Draft) (q q' : Query),
      parse {} "select a where or(str_eq(@key,'')) limit 7" = .ok d ∧
      parse {} "\nselect a where or\n(\nstr_eq(@key,\n''\n)) limit 7" = .ok d' ∧
      d.compile = .ok q ∧ d'.compile = .ok q' ∧ d = d' := by
  have hd : parse {} "select a where or(str_eq(@key,'')) limit 7" =
      .ok (Sentence.specimen.fill {}) :=
    parse_eq_ok_iff.2 ⟨by decide, _, Sentence.specimen_text, by decide, rfl⟩
  have hd' : parse {} "\nselect a where or\n(\nstr_eq(@key,\n''\n)) limit 7" =
      .ok (Sentence.spaced.fill {}) :=
    parse_eq_ok_iff.2 ⟨by decide, _, Sentence.spaced_text, by decide, rfl⟩
  have hq := Sentence.specimen.compile_fill
  have hq' := Sentence.spaced.compile_fill
  rw [if_pos (by decide)] at hq hq'
  exact ⟨_, _, _, _, hd, hd', hq, hq',
    (draft_eq_iff_selection_eq {} {} _ _ _ _ _ _ hd hd' hq hq').1 ⟨rfl, rfl, rfl⟩⟩

end TableLang
