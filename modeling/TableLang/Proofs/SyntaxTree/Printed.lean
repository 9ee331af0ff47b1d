import TableLang.Proofs.Draft.Sketch
import TableLang.Proofs.SyntaxTree

/-! Printed trees read back. A printed nesting has a line for every token that covers something,
whatever the input has in its spans, since quoted text holds no line end. Each line begins with the
depth of its token and its label, and these alone give the shape of the trees. -/
namespace TableLang

namespace Tree
variable {α β : Type}

/-- Puts a label at the given depth before trees that come with the depths of their roots: those
that stand deeper and directly behind it become its parts. -/
def plant (row : Nat × α) (built : List (Nat × Tree α)) : List (Nat × Tree α) :=
  (row.1, node row.2 ((built.takeWhile (row.1 < ·.1)).map Prod.snd)) ::
    built.dropWhile (row.1 < ·.1)

def ofLevels (rows : List (Nat × α)) : List (Tree α) := (rows.foldr plant []).map Prod.snd

theorem plant_append (depth : Nat) (a : α) (ts : List (Tree α)) (built : List (Nat × Tree α))
    (hbuilt : ∀ u ∈ built.head?, u.1 ≤ depth) :
    plant (depth, a) (ts.map (depth + 1, ·) ++ built) = (depth, node a ts) :: built := by
  have hparts : ∀ u ∈ ts.map (depth + 1, ·), decide (depth < u.1) = true := by simp
  rw [plant, List.takeWhile_append_of_pos hparts, List.dropWhile_append_of_pos hparts]
  cases built with
  | nil => simp [Function.comp_def]
  | cons u built =>
    have hu : ¬ depth < u.1 := by simpa using hbuilt u rfl
    simp [hu, Function.comp_def]

mutual
theorem foldr_plant_levels : (t : Tree α) → (depth : Nat) → (built : List (Nat × Tree α)) →
    (∀ u ∈ built.head?, u.1 ≤ depth) →
    (t.levels depth).foldr plant built = (depth, t) :: built
  | node a ts, depth, built, hbuilt => by
    have hbelow : ∀ u ∈ built.head?, u.1 ≤ depth + 1 := fun u hu =>
      Nat.le_succ_of_le (hbuilt u hu)
    rw [levels, List.foldr_cons, foldr_plant_levelsForest ts (depth + 1) built hbelow,
      plant_append depth a ts built hbuilt]

theorem foldr_plant_levelsForest : (ts : List (Tree α)) → (depth : Nat) →
    (built : List (Nat × Tree α)) → (∀ u ∈ built.head?, u.1 ≤ depth) →
    (levelsForest depth ts).foldr plant built = ts.map (depth, ·) ++ built
  | [], _, _, _ => rfl
  | t :: ts, depth, built, hbuilt => by
    have hnext : ∀ u ∈ (ts.map (depth, ·) ++ built).head?, u.1 ≤ depth := by
      cases ts with
      | nil => exact hbuilt
      | cons _ _ => simp
    rw [levelsForest, List.foldr_append, foldr_plant_levelsForest ts depth built hbuilt,
      foldr_plant_levels t depth _ hnext, List.map_cons, List.cons_append]
end

/-- Trees are given by their labels in preorder and the depths of these. -/
theorem ofLevels_levelsForest (depth : Nat) (ts : List (Tree α)) :
    ofLevels (levelsForest depth ts) = ts := by
  rw [ofLevels, foldr_plant_levelsForest ts depth [] (by simp)]
  simp [Function.comp_def]

mutual
theorem levels_map (f : α → β) : (t : Tree α) → (depth : Nat) →
    (t.map f).levels depth = (t.levels depth).map fun row => (row.1, f row.2)
  | node a ts, depth => by simp [map, levels, levelsForest_mapAll f ts (depth + 1)]

theorem levelsForest_mapAll (f : α → β) : (ts : List (Tree α)) → (depth : Nat) →
    levelsForest depth (mapAll f ts) = (levelsForest depth ts).map fun row => (row.1, f row.2)
  | [], _ => rfl
  | t :: ts, depth => by
    simp [mapAll, levelsForest, levels_map f t depth, levelsForest_mapAll f ts depth]
end

mutual
theorem length_levels : (t : Tree α) → (depth : Nat) →
    (t.levels depth).length = t.postorder.length
  | node a ts, depth => by simp [levels, postorder, length_levelsForest ts (depth + 1)]

theorem length_levelsForest : (ts : List (Tree α)) → (depth : Nat) →
    (levelsForest depth ts).length = (postorderForest ts).length
  | [], _ => rfl
  | t :: ts, depth => by
    simp [levelsForest, postorderForest, length_levels t depth, length_levelsForest ts depth]
end

end Tree

namespace Label

theorem ofName?_name (l : Label) : ofName? l.name = some l := by
  cases l with
  | blank => rfl
  | production p =>
    cases p with
    | groupClause c => cases c <;> rfl
    | _ => rfl
  | text => rfl
  | action a =>
    cases a with
    | becomeGroup c => cases c <;> rfl
    | _ => rfl

theorem isAlpha_name (l : Label) :
    (!l.name.toList.isEmpty && l.name.toList.all Char.isAlpha) = true := by
  cases l with
  | blank => rfl
  | production p =>
    cases p with
    | groupClause c => cases c <;> rfl
    | _ => rfl
  | text => rfl
  | action a =>
    cases a with
    | becomeGroup c => cases c <;> rfl
    | _ => rfl

/-- Names are words of letters. -/
theorem name_letters (l : Label) :
    (∃ c cs, l.name.toList = c :: cs) ∧ ∀ c ∈ l.name.toList, c.isAlpha = true := by
  have hname := l.isAlpha_name
  simp only [Bool.and_eq_true, Bool.not_eq_true', List.isEmpty_eq_false_iff, List.all_eq_true]
    at hname
  rwa [← List.ne_nil_iff_exists_cons]

end Label

namespace SyntaxTree
open TableLang.Tree

def withoutColour (shown : List Char) : List Char :=
  if shown.head? = some '\x1b' then shown.drop 5 else shown

def readHead (line : List Char) : Option (Nat × Label) :=
  let shown := line.dropWhile (· = ' ')
  let name := (withoutColour shown).takeWhile Char.isAlpha
  (Label.ofName? (String.ofList name)).map ((line.takeWhile (· = ' ')).length, ·)

theorem takeWhile_withoutColour (highlight : Bool) (l : Label) (rest : List Char) :
    (withoutColour ((l.shown highlight).toList ++ ' ' :: rest)).takeWhile Char.isAlpha =
      l.name.toList := by
  obtain ⟨⟨c, cs, hcons⟩, hletters⟩ := l.name_letters
  cases highlight with
  | true =>
    have hname : withoutColour ((l.shown true).toList ++ ' ' :: rest) =
        l.name.toList ++ '\x1b' :: '[' :: 'm' :: ' ' :: rest := by
      simp [withoutColour, Label.shown]
    rw [hname, List.takeWhile_append_of_pos hletters]
    simp
  | false =>
    have hletter : c.isAlpha = true := hletters c (by simp [hcons])
    have hc : c ≠ '\x1b' := by
      rintro rfl
      exact absurd hletter (by decide)
    have hname : withoutColour ((l.shown false).toList ++ ' ' :: rest) =
        l.name.toList ++ ' ' :: rest := by
      simp [withoutColour, Label.shown, hcons, hc]
    rw [hname, List.takeWhile_append_of_pos hletters]
    simp

theorem shown_eq_cons (highlight : Bool) (l : Label) :
    ∃ c cs, (l.shown highlight).toList = c :: cs ∧ c ≠ ' ' := by
  cases highlight with
  | true =>
    exact ⟨'\x1b', "[34m".toList ++ l.name.toList ++ "\x1b[m".toList, by simp [Label.shown],
      by decide⟩
  | false =>
    obtain ⟨⟨c, cs, hcons⟩, hletters⟩ := l.name_letters
    have hletter : c.isAlpha = true := hletters c (by simp [hcons])
    refine ⟨c, cs, hcons, ?_⟩
    rintro rfl
    exact absurd hletter (by decide)

theorem readHead_rowText (highlight : Bool) (input : List Char) (row : Nat × Token) :
    readHead (rowText highlight input row).toList = some (row.1, row.2.label) := by
  obtain ⟨depth, t⟩ := row
  obtain ⟨c, cs, hshown, hc⟩ := shown_eq_cons highlight t.label
  have hblanks : ∀ b ∈ List.replicate depth ' ', decide (b = ' ') = true := by simp
  generalize hquoted : (Text.quoted ((input.drop t.start).take (t.stop - t.start))).toList = rest
  have htext : (rowText highlight input (depth, t)).toList =
      List.replicate depth ' ' ++ ((t.label.shown highlight).toList ++ ' ' :: rest) := by
    cases highlight <;> simp [rowText, Label.shown, ← hquoted]
  have hdrop : ((t.label.shown highlight).toList ++ ' ' :: rest).dropWhile (· = ' ') =
      (t.label.shown highlight).toList ++ ' ' :: rest := by
    simp [hshown, hc]
  have htake : ((t.label.shown highlight).toList ++ ' ' :: rest).takeWhile (· = ' ') = [] := by
    simp [hshown, hc]
  rw [htext, readHead, List.dropWhile_append_of_pos hblanks,
    List.takeWhile_append_of_pos hblanks, hdrop, htake, takeWhile_withoutColour]
  simp [Label.ofName?_name]

theorem newline_notMem_rowText (highlight : Bool) (input : List Char) (row : Nat × Token) :
    '\n' ∉ (rowText highlight input row).toList := by
  have hname : '\n' ∉ row.2.label.name.toList := fun h =>
    absurd (row.2.label.name_letters.2 _ h) (by decide)
  cases highlight <;> simp [rowText, hname, Text.newline_notMem_quoted]

/-- The printed lines are found again, however many line ends the spans hold. -/
theorem lines_rows (highlight : Bool) (input : List Char) (rows : List (Nat × Token)) :
    Text.lines (Text.ofLines (rows.map (rowText highlight input))) =
      rows.map fun row => (rowText highlight input row).toList := by
  rw [Text.lines_ofLines, List.map_map]
  · rfl
  · simp only [List.forall_mem_map]
    exact fun row _ => newline_notMem_rowText highlight input row

theorem mapM_readHead (highlight : Bool) (input : List Char) (rows : List (Nat × Token)) :
    (rows.map fun row => (rowText highlight input row).toList).mapM readHead =
      some (rows.map fun row => (row.1, row.2.label)) := by
  induction rows with
  | nil => rfl
  | cons row rows ih => simp [readHead_rowText, ih]

structure Shows (highlight : Bool) (input : List Char) (tokens : List Token) (text : String) :
    Prop where
  /-- There is a line for each node of the trees, the parent before its children. -/
  text_eq : text = Text.ofLines ((levelsForest 0 (ofTokens tokens)).map (rowText highlight input))
  /-- There are as many lines as tokens that cover something. -/
  length_lines : (Text.lines text).length = (tokens.filter fun t => !t.isEmpty).length
  /-- The depth and the label at the head of each line give the shape of the trees. -/
  shape_eq : ((Text.lines text).mapM readHead).map ofLevels =
    some (mapAll Token.label (ofTokens tokens))

theorem shows_ofLines (highlight : Bool) (input : List Char) (tokens : List Token) :
    Shows highlight input tokens
      (Text.ofLines ((levelsForest 0 (ofTokens tokens)).map (rowText highlight input))) where
  text_eq := rfl
  length_lines := by
    rw [lines_rows, List.length_map, length_levelsForest, (nests_ofTokens tokens).postorder_eq]
  shape_eq := by
    rw [lines_rows, mapM_readHead, ← levelsForest_mapAll, Option.map_some, ofLevels_levelsForest]

/-- Printing fails exactly when the span of a token that covers something is none of the input:
when it ends before it begins, or past the end. Otherwise there is one line for every such token,
and the lines tell the shape of the trees. -/
theorem render_shows_trees (highlight : Bool) (input : List Char) (tokens : List Token) :
    ((∃ fault, render highlight input tokens = .error fault) ↔
      ∃ t ∈ tokens, t.start ≠ t.stop ∧ (t.stop < t.start ∨ input.length < t.stop)) ∧
    ∀ text, render highlight input tokens = .ok text ↔
      (∀ t ∈ tokens, t.start ≠ t.stop → t.start ≤ t.stop ∧ t.stop ≤ input.length) ∧
        Shows highlight input tokens text := by
  have hok : ∀ text, render highlight input tokens = .ok text ↔
      (∀ t ∈ tokens, t.start ≠ t.stop → t.start ≤ t.stop ∧ t.stop ≤ input.length) ∧
        Shows highlight input tokens text := by
    intro text
    simp only [render_eq_ok_iff, Token.isEmpty, decide_eq_false_iff_not, Token.Fits, ne_eq]
    refine and_congr_right fun _ => ⟨?_, Shows.text_eq⟩
    rintro rfl
    exact shows_ofLines highlight input tokens
  refine ⟨?_, hok⟩
  have herror : (∃ fault, render highlight input tokens = .error fault) ↔
      ¬ ∃ text, render highlight input tokens = .ok text := by
    cases render highlight input tokens <;> simp
  rw [herror, exists_render_eq_ok_iff]
  simp only [Token.isEmpty, decide_eq_false_iff_not, Token.Fits, not_forall, not_and_or, Nat.not_le,
    exists_prop, ne_eq]

end SyntaxTree
end TableLang
