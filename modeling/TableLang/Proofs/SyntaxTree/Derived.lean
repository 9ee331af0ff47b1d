import TableLang.Proofs.Language
import TableLang.Proofs.SyntaxTree.Nests

/-! The trees of the tokens of a text. A text has one derivation, whose nodes cover spans that lie
in each other or side by side. Main statement: the trees built from the spans alone are this
derivation without the nodes that cover nothing, so no production is taken in by another than the
one in which it was read. -/
namespace TableLang

namespace Tree
variable {α : Type}

mutual
/-- A tree without the labels that `drop` is true of; what is below such a label moves up to its
place. -/
def erase (drop : α → Bool) : Tree α → List (Tree α)
  | node a ts => if drop a then eraseAll drop ts else [node a (eraseAll drop ts)]

def eraseAll (drop : α → Bool) : List (Tree α) → List (Tree α)
  | [] => []
  | t :: ts => t.erase drop ++ eraseAll drop ts
end

mutual
def subtrees : Tree α → List (Tree α)
  | node a ts => node a ts :: subtreesAll ts

def subtreesAll : List (Tree α) → List (Tree α)
  | [] => []
  | t :: ts => t.subtrees ++ subtreesAll ts
end

theorem eraseAll_append (drop : α → Bool) (ts us : List (Tree α)) :
    eraseAll drop (ts ++ us) = eraseAll drop ts ++ eraseAll drop us := by
  induction ts with
  | nil => rfl
  | cons t ts ih => simp [eraseAll, ih]

mutual
theorem postorderForest_erase (drop : α → Bool) : (t : Tree α) →
    postorderForest (t.erase drop) = t.postorder.filter fun a => !drop a
  | node a ts => by
    have hbelow := postorderForest_eraseAll drop ts
    by_cases ha : drop a
    · simp [erase, postorder, ha, hbelow]
    · simp [erase, postorder, postorderForest, ha, hbelow]

theorem postorderForest_eraseAll (drop : α → Bool) : (ts : List (Tree α)) →
    postorderForest (eraseAll drop ts) = (postorderForest ts).filter fun a => !drop a
  | [] => rfl
  | t :: ts => by
    rw [eraseAll, postorderForest_append, postorderForest_erase drop t,
      postorderForest_eraseAll drop ts, postorderForest, List.filter_append]
end

theorem mem_subtreesAll {t : Tree α} {ts : List (Tree α)} (h : t ∈ ts) : t ∈ subtreesAll ts := by
  induction ts with
  | nil => cases h
  | cons u ts ih =>
    rw [subtreesAll, List.mem_append]
    obtain rfl | h := List.mem_cons.1 h
    · cases t with
      | node a us => exact .inl (List.mem_cons_self ..)
    · exact .inr (ih h)

mutual
theorem Everywhere.imp {p q : α → List (Tree α) → Prop} (himp : ∀ a ts, p a ts → q a ts) :
    {t : Tree α} → t.Everywhere p → t.Everywhere q
  | node a ts, ⟨ha, hts⟩ => ⟨himp a ts ha, EverywhereAll.imp himp hts⟩

theorem EverywhereAll.imp {p q : α → List (Tree α) → Prop} (himp : ∀ a ts, p a ts → q a ts) :
    {ts : List (Tree α)} → EverywhereAll p ts → EverywhereAll q ts
  | [], _ => trivial
  | _ :: _, ⟨ht, hts⟩ => ⟨Everywhere.imp himp ht, EverywhereAll.imp himp hts⟩
end

end Tree

namespace Grammar.Derivation
open TableLang.Tree

mutual
def trees (start : Nat) : Derivation → List (Tree Token)
  | char _ => []
  | node label parts =>
    [.node ⟨label, start, start + (textAll parts).length⟩ (treesAll start parts)]

def treesAll (start : Nat) : List Derivation → List (Tree Token)
  | [] => []
  | t :: ts => t.trees start ++ treesAll (start + t.text.length) ts
end

mutual
theorem postorderForest_trees : (t : Derivation) → (start : Nat) →
    postorderForest (t.trees start) = t.tokens start
  | char _, _ => rfl
  | node label parts, start => by
    simp [trees, tokens, postorderForest, postorder, postorderForest_treesAll parts start]

theorem postorderForest_treesAll : (ts : List Derivation) → (start : Nat) →
    postorderForest (treesAll start ts) = tokensAll start ts
  | [], _ => rfl
  | t :: ts, start => by
    rw [treesAll, postorderForest_append, postorderForest_trees t start,
      postorderForest_treesAll ts (start + t.text.length), tokensAll]
end

end Grammar.Derivation

namespace SyntaxTree
open TableLang.Tree Grammar Grammar.Derivation

/-- A row of trees laid out from `lo` to `hi`: every token covers something, the trees follow each
other without overlap, and the parts of a token are laid out within its span. -/
inductive Laid : Nat → Nat → List (Tree Token) → Prop where
  | nil {lo hi : Nat} (h : lo ≤ hi) : Laid lo hi []
  | cons {lo hi : Nat} {t : Token} {parts later : List (Tree Token)} (hstart : lo ≤ t.start)
    (hspan : t.start < t.stop) (hparts : Laid t.start t.stop parts)
    (hlater : Laid t.stop hi later) : Laid lo hi (.node t parts :: later)

namespace Laid
variable {lo hi : Nat} {row : List (Tree Token)}

theorem append {mid : Nat} {more : List (Tree Token)} (h : Laid lo mid row)
    (hmore : Laid mid hi more) : Laid lo hi (row ++ more) := by
  induction h with
  | nil hle =>
    cases hmore with
    | nil hle' => exact .nil (Nat.le_trans hle hle')
    | cons hstart hspan hparts hlater =>
      exact .cons (Nat.le_trans hle hstart) hspan hparts hlater
  | cons hstart hspan hparts _ _ ihlater => exact .cons hstart hspan hparts (ihlater hmore)

theorem le (h : Laid lo hi row) : lo ≤ hi := by
  induction h with
  | nil hle => exact hle
  | cons hstart hspan _ _ _ ihlater => omega

/-- Everything in a row stays between its ends. -/
theorem bounds (h : Laid lo hi row) : ∀ u ∈ subtreesAll row,
    lo ≤ u.label.start ∧ u.label.start < u.label.stop ∧ u.label.stop ≤ hi := by
  induction h with
  | nil _ => simp [subtreesAll]
  | cons hstart hspan hparts hlater ihparts ihlater =>
    have hstop := hlater.le
    intro u hu
    simp only [subtreesAll, subtrees, List.cons_append, List.mem_cons, List.mem_append] at hu
    obtain rfl | hu | hu := hu
    · exact ⟨hstart, hspan, hstop⟩
    · have hbounds := ihparts u hu
      omega
    · have hbounds := ihlater u hu
      omega

theorem bounds_of_mem (h : Laid lo hi row) {u : Tree Token} (hu : u ∈ row) :
    lo ≤ u.label.start ∧ u.label.start < u.label.stop ∧ u.label.stop ≤ hi :=
  h.bounds u (mem_subtreesAll hu)

/-- The trees of a row follow each other without overlap. -/
theorem pairwise (h : Laid lo hi row) : row.Pairwise fun u v => u.label.stop ≤ v.label.start := by
  induction h with
  | nil _ => exact .nil
  | cons _ _ _ hlater _ ihlater =>
    exact List.pairwise_cons.2 ⟨fun v hv => (hlater.bounds_of_mem hv).1, ihlater⟩

/-- What holds of a row holds of the parts of every token in it. -/
theorem everywhere (h : Laid lo hi row) :
    EverywhereAll (fun t parts => Laid t.start t.stop parts) row := by
  induction h with
  | nil _ => trivial
  | cons _ _ hparts _ ihparts ihlater => exact ⟨⟨hparts, ihparts⟩, ihlater⟩

theorem apart (h : Laid lo hi row) : Apart row := by
  refine h.pairwise.isChain.imp_of_mem_imp fun u v hu _ hle => ?_
  have hbounds := h.bounds_of_mem hu
  have hstart : ¬ v.label.start ≤ u.label.start := by omega
  simp [Token.within, hstart]

theorem encloses {t : Token} (h : Laid t.start t.stop row) : Encloses t row := by
  refine ⟨fun u hu => ?_, h.apart⟩
  have hbounds := h.bounds_of_mem hu
  simp [Token.within, hbounds]

/-- Of two tokens with the same span, the one met first has the other one below it. -/
theorem nested_of_same_span (h : Laid lo hi row) :
    (subtreesAll row).Pairwise fun u v =>
      u.label.start = v.label.start → u.label.stop = v.label.stop →
        v ∈ subtreesAll u.children := by
  induction h with
  | nil _ => exact .nil
  | @cons lo hi t parts later hstart hspan hparts hlater ihparts ihlater =>
    rw [subtreesAll, List.pairwise_append]
    refine ⟨?_, ihlater, fun u hu v hv hsame => ?_⟩
    · rw [subtrees, List.pairwise_cons]
      exact ⟨fun v hv _ _ => hv, ihparts⟩
    · -- Trees side by side share no span: the second begins where the first has ended.
      have hfirst : u.label.start < u.label.stop ∧ u.label.stop ≤ t.stop := by
        rw [subtrees, List.mem_cons] at hu
        obtain rfl | hu := hu
        · exact ⟨hspan, Nat.le_refl _⟩
        · exact (hparts.bounds u hu).2
      have hsecond := (hlater.bounds v hv).1
      omega

end Laid

theorem isEmpty_span (label : Label) (start length : Nat) :
    Token.isEmpty ⟨label, start, start + length⟩ = decide (length = 0) := by
  simp [Token.isEmpty]

mutual
/-- A derivation without its empty nodes is laid out over its text. -/
theorem laid_erase_trees : (t : Derivation) → (start : Nat) →
    Laid start (start + t.text.length) (eraseAll Token.isEmpty (t.trees start))
  | .char c, start => .nil (Nat.le_add_right _ _)
  | .node label parts, start => by
    have hparts := laid_erase_treesAll parts start
    rw [trees, eraseAll, eraseAll, List.append_nil, erase, isEmpty_span, Derivation.text]
    by_cases hempty : (textAll parts).length = 0
    · rw [if_pos (decide_eq_true hempty)]
      exact hparts
    · rw [if_neg (by simpa using hempty)]
      have hspan : start < start + (textAll parts).length := by omega
      exact .cons (Nat.le_refl _) hspan hparts (.nil (Nat.le_refl _))

theorem laid_erase_treesAll : (ts : List Derivation) → (start : Nat) →
    Laid start (start + (textAll ts).length) (eraseAll Token.isEmpty (treesAll start ts))
  | [], start => .nil (Nat.le_add_right _ _)
  | t :: ts, start => by
    have hlater := laid_erase_treesAll ts (start + t.text.length)
    rw [treesAll, eraseAll_append, textAll, List.length_append, ← Nat.add_assoc]
    exact (laid_erase_trees t start).append hlater
end

theorem nests_erase_trees (t : Derivation) :
    Nests (t.tokens 0) (eraseAll Token.isEmpty (t.trees 0)) where
  postorder_eq := by rw [postorderForest_eraseAll, postorderForest_trees]
  apart := (laid_erase_trees t 0).apart
  enclosed := (laid_erase_trees t 0).everywhere.imp fun _ _ h => h.encloses

/-- The trees of a whole text are a single one, for `Query` and all of the text. -/
theorem erase_trees_of_spells {t : Derivation} {source : List Char} (h : t.Spells source) :
    ∃ parts, eraseAll Token.isEmpty (t.trees 0) =
      [.node ⟨.production .query, 0, source.length⟩ parts] := by
  obtain ⟨s, -, hs⟩ := exists_sentence h
  have hne : source ≠ [] := by
    rw [← hs]
    simp [Sentence.text]
  obtain ⟨derived, text_eq⟩ := h
  cases derived with
  | @rule _ ts hbody =>
    refine ⟨eraseAll Token.isEmpty (treesAll 0 ts), ?_⟩
    rw [← text_eq, Derivation.text] at hne ⊢
    rw [trees, eraseAll, eraseAll, erase, isEmpty_span]
    simp [hne]

/-- The trees built from the tokens of a text are its only derivation without the nodes that cover
nothing. They are a single tree, for `Query` and all of the text. In every row of it the spans
follow each other without overlap, and of two nodes with the same span the one that was entered
first, which is the order of `subtreesAll`, has the other one below it. -/
theorem ofTokens_eq_erased_derivation (settings : Settings) (source : String) (tokens : List Token)
    (h : tokenize settings source = .ok tokens) :
    ∃ t : Derivation, t.Spells source.toList ∧ (∀ u : Derivation, u.Spells source.toList → u = t) ∧
      ofTokens tokens = eraseAll Token.isEmpty (t.trees 0) ∧
      (∃ parts, ofTokens tokens = [.node ⟨.production .query, 0, source.length⟩ parts]) ∧
      EverywhereAll (fun _ parts => parts.Pairwise fun u v => u.label.stop ≤ v.label.start)
        (ofTokens tokens) ∧
      (subtreesAll (ofTokens tokens)).Pairwise fun u v =>
        u.label.start = v.label.start → u.label.stop = v.label.stop →
          v ∈ subtreesAll u.children := by
  obtain ⟨-, s, hs, -, rfl⟩ := tokenize_eq_ok_iff.1 h
  have hspells : s.derivation.Spells source.toList := hs ▸ spells_derivation s
  have hlaid := laid_erase_trees s.derivation 0
  rw [← (nests_erase_trees s.derivation).eq_ofTokens]
  refine ⟨s.derivation, hspells, fun u hu => eq_of_spells hspells hu, rfl, ?_,
    hlaid.everywhere.imp fun _ _ hparts => hparts.pairwise, hlaid.nested_of_same_span⟩
  rw [← String.length_toList]
  exact erase_trees_of_spells hspells

theorem ofTokens_eq_erased_derivation_specimen :
    tokenize {} "select a where or(str_eq(@key,'')) limit 7" =
        .ok (Sentence.specimen.derivation.tokens 0) ∧
      ∃ t : Derivation, t.Spells "select a where or(str_eq(@key,'')) limit 7".toList ∧
        (∀ u : Derivation,
          u.Spells "select a where or(str_eq(@key,'')) limit 7".toList → u = t) ∧
        ofTokens (Sentence.specimen.derivation.tokens 0) =
          eraseAll Token.isEmpty (t.trees 0) ∧
        (∃ parts, ofTokens (Sentence.specimen.derivation.tokens 0) =
          [.node ⟨.production .query, 0, 42⟩ parts]) ∧
        EverywhereAll (fun _ parts => parts.Pairwise fun u v => u.label.stop ≤ v.label.start)
          (ofTokens (Sentence.specimen.derivation.tokens 0)) ∧
        (subtreesAll (ofTokens (Sentence.specimen.derivation.tokens 0))).Pairwise fun u v =>
          u.label.start = v.label.start → u.label.stop = v.label.stop →
            v ∈ subtreesAll u.children := by
  have h : tokenize {} "select a where or(str_eq(@key,'')) limit 7" =
      .ok (Sentence.specimen.derivation.tokens 0) :=
    tokenize_eq_ok_iff.2 ⟨by decide, Sentence.specimen, Sentence.specimen_text, by decide, rfl⟩
  exact ⟨h, ofTokens_eq_erased_derivation {} _ _ h⟩

end SyntaxTree
end TableLang
