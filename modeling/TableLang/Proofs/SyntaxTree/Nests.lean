import Mathlib.Data.List.Chain
import Mathlib.Data.List.DropRight
import TableLang.SyntaxTree

/-! The trees of a list of tokens, by laws that do not say how they are built: listed in postorder
they give the tokens that cover something, every token lies within its parent, and in no row of
trees does one lie within the next. Main statement: for any list of tokens, also one that no input
has, the trees built from it obey these laws, and no others do. -/
namespace TableLang

/-- A span within a second one lies within all that the second one lies within. -/
theorem Token.within_trans {t u v : Token} (htu : t.within u = true) (huv : u.within v = true) :
    t.within v = true := by
  simp only [within, Bool.and_eq_true, decide_eq_true_eq] at htu huv ⊢
  omega

namespace Tree
variable {α : Type}

mutual
def Everywhere (p : α → List (Tree α) → Prop) : Tree α → Prop
  | node a ts => p a ts ∧ EverywhereAll p ts

def EverywhereAll (p : α → List (Tree α) → Prop) : List (Tree α) → Prop
  | [] => True
  | t :: ts => t.Everywhere p ∧ EverywhereAll p ts
end

theorem everywhereAll_append {p : α → List (Tree α) → Prop} {ts us : List (Tree α)} :
    EverywhereAll p (ts ++ us) ↔ EverywhereAll p ts ∧ EverywhereAll p us := by
  induction ts with
  | nil => simp [EverywhereAll]
  | cons t ts ih => simp [EverywhereAll, ih, and_assoc]

theorem everywhereAll_singleton {p : α → List (Tree α) → Prop} {a : α} {ts : List (Tree α)} :
    EverywhereAll p [node a ts] ↔ p a ts ∧ EverywhereAll p ts := by
  simp [EverywhereAll, Everywhere]

theorem postorderForest_append (ts us : List (Tree α)) :
    postorderForest (ts ++ us) = postorderForest ts ++ postorderForest us := by
  induction ts with
  | nil => rfl
  | cons t ts ih => simp [postorderForest, ih]

theorem postorderForest_concat (earlier : List (Tree α)) (a : α) (ts : List (Tree α)) :
    postorderForest (earlier ++ [node a ts]) = postorderForest (earlier ++ ts) ++ [a] := by
  simp [postorderForest_append, postorderForest, postorder]

theorem postorderForest_eq_nil_iff {ts : List (Tree α)} : postorderForest ts = [] ↔ ts = [] := by
  cases ts with
  | nil => simp [postorderForest]
  | cons t ts =>
    cases t with
    | node a us => simp [postorderForest, postorder]

end Tree

namespace SyntaxTree
open TableLang.Tree

def Apart (row : List (Tree Token)) : Prop :=
  row.IsChain fun u v => u.label.within v.label = false

def Encloses (t : Token) (parts : List (Tree Token)) : Prop :=
  (∀ u ∈ parts, u.label.within t = true) ∧ Apart parts

structure Nests (tokens : List Token) (forest : List (Tree Token)) : Prop where
  /-- No token that covers something is lost, repeated or moved. -/
  postorder_eq : postorderForest forest = tokens.filter fun t => !t.isEmpty
  /-- The outermost trees obey the law for rows. -/
  apart : Apart forest
  /-- So do the parts of every token, which lie within it. -/
  enclosed : EverywhereAll Encloses forest

/-- A row in document order breaks into the trees that a token leaves where they are and those that
it takes in. -/
structure Parting (t : Token) (earlier parts : List (Tree Token)) : Prop where
  within_of_mem : ∀ u ∈ parts, u.label.within t = true
  not_within_last : ∀ u ∈ earlier.getLast?, u.label.within t = false

theorem exists_parting (t : Token) (row : List (Tree Token)) :
    ∃ earlier parts, row = earlier ++ parts ∧ Parting t earlier parts := by
  refine ⟨row.rdropWhile (·.label.within t), row.rtakeWhile (·.label.within t),
    (List.rdropWhile_append_rtakeWhile ..).symm, fun u hu => ?_, fun u hu => ?_⟩
  · exact List.mem_rtakeWhile_imp (p := fun u : Tree Token => u.label.within t) hu
  · obtain ⟨hne, rfl⟩ := List.mem_getLast?_eq_getLast hu
    exact eq_false_of_ne_true (List.rdropWhile_last_not _ _ hne)

/-- The loop goes through the parts from right to left and stops at the tree before them. -/
theorem adopt_append (t : Token) (parts inner rest : List (Tree Token))
    (hinner : ∀ u ∈ inner, u.label.within t = true)
    (hrest : ∀ u ∈ rest.head?, u.label.within t = false) :
    adopt t parts (inner ++ rest) = .node t (inner.reverse ++ parts) :: rest := by
  induction inner generalizing parts with
  | nil =>
    cases rest with
    | nil => rfl
    | cons u rest =>
      have hu : u.label.within t = false := hrest u rfl
      simp [adopt, hu]
  | cons u inner ih =>
    have hu : u.label.within t = true := hinner u (List.mem_cons_self ..)
    have hstep := ih (u :: parts) fun v hv => hinner v (List.mem_cons_of_mem u hv)
    rw [List.cons_append, adopt, if_pos hu, hstep, List.reverse_cons, List.append_assoc]
    rfl

theorem Parting.reverse_adopt {t : Token} {earlier parts : List (Tree Token)}
    (h : Parting t earlier parts) :
    (adopt t [] (earlier ++ parts).reverse).reverse = earlier ++ [.node t parts] := by
  have hadopt := adopt_append t [] parts.reverse earlier.reverse
    (by simpa using h.within_of_mem) (by simpa using h.not_within_last)
  rw [List.reverse_append, hadopt]
  simp

/-- What one token does to a row keeps the laws, and nothing else that it might do would. -/
theorem laws_concat_iff {t : Token} {earlier parts : List (Tree Token)} :
    Apart (earlier ++ [.node t parts]) ∧ EverywhereAll Encloses (earlier ++ [.node t parts]) ↔
      (Apart (earlier ++ parts) ∧ EverywhereAll Encloses (earlier ++ parts)) ∧
        Parting t earlier parts := by
  simp only [Apart, List.isChain_append, everywhereAll_append, everywhereAll_singleton, Encloses]
  constructor
  · rintro ⟨⟨hearlier, -, hlast⟩, hbelow, ⟨hwithin, hparts⟩, hinner⟩
    have hlast : ∀ u ∈ earlier.getLast?, u.label.within t = false := by simpa [label] using hlast
    refine ⟨⟨⟨hearlier, hparts, fun u hu v hv => ?_⟩, hbelow, hinner⟩, hwithin, hlast⟩
    -- A tree within the first part would lie within the token, like that part.
    by_contra hne
    have huv : u.label.within v.label = true := by simpa using hne
    have hut := Token.within_trans huv (hwithin v (List.mem_of_mem_head? hv))
    rw [hlast u hu] at hut
    cases hut
  · rintro ⟨⟨⟨hearlier, hparts, -⟩, hbelow, hinner⟩, hwithin, hlast⟩
    exact ⟨⟨hearlier, .singleton _, by simpa [label] using hlast⟩, hbelow, ⟨hwithin, hparts⟩,
      hinner⟩

/-- The laws for a list of tokens that all cover something leave only the trees built from it. -/
theorem laws_iff_eq_foldl (kept : List Token) (forest : List (Tree Token)) :
    (postorderForest forest = kept ∧ Apart forest ∧ EverywhereAll Encloses forest) ↔
      forest = (kept.foldl (fun built t => adopt t [] built) []).reverse := by
  induction kept using List.reverseRecOn generalizing forest with
  | nil =>
    rw [postorderForest_eq_nil_iff]
    constructor
    · rintro ⟨rfl, -⟩
      rfl
    · rintro rfl
      exact ⟨rfl, .nil, trivial⟩
  | append_singleton kept t ih =>
    rw [List.foldl_append, List.foldl_cons, List.foldl_nil]
    constructor
    · rintro ⟨hpostorder, hlaws⟩
      -- The last token is the root of the last tree; without it its parts join the row.
      obtain rfl | ⟨earlier, ⟨u, parts⟩, rfl⟩ := forest.eq_nil_or_concat'
      · simp [postorderForest] at hpostorder
      · rw [postorderForest_concat] at hpostorder
        obtain ⟨hkept, hu⟩ := List.append_inj' hpostorder rfl
        obtain rfl : u = t := List.singleton_inj.1 hu
        obtain ⟨hrow, hparting⟩ := laws_concat_iff.1 hlaws
        have hbuilt := (ih (earlier ++ parts)).1 ⟨hkept, hrow⟩
        rw [← hparting.reverse_adopt, hbuilt, List.reverse_reverse]
    · rintro rfl
      generalize hbuilt : kept.foldl (fun built t => adopt t [] built) [] = built at ih ⊢
      obtain ⟨earlier, parts, hrow, hparting⟩ := exists_parting t built.reverse
      obtain ⟨hkept, hlaws⟩ := (ih (earlier ++ parts)).2 hrow.symm
      have hadopt := hparting.reverse_adopt
      rw [← hrow, List.reverse_reverse] at hadopt
      rw [hadopt, postorderForest_concat, hkept]
      exact ⟨rfl, laws_concat_iff.2 ⟨hlaws, hparting⟩⟩

theorem Nests.eq_ofTokens {tokens : List Token} {forest : List (Tree Token)}
    (h : Nests tokens forest) : forest = ofTokens tokens :=
  (laws_iff_eq_foldl _ forest).1 ⟨h.postorder_eq, h.apart, h.enclosed⟩

theorem nests_ofTokens (tokens : List Token) : Nests tokens (ofTokens tokens) := by
  obtain ⟨hpostorder, hapart, henclosed⟩ := (laws_iff_eq_foldl _ (ofTokens tokens)).2 rfl
  exact ⟨hpostorder, hapart, henclosed⟩

/-- The trees built from a list of tokens are the only ones that obey the laws for it. The tokens
may overlap, come in any order or end before they begin. -/
theorem nests_iff_eq_ofTokens (tokens : List Token) (forest : List (Tree Token)) :
    Nests tokens forest ↔ forest = ofTokens tokens := by
  constructor
  · exact Nests.eq_ofTokens
  · rintro rfl
    exact nests_ofTokens tokens

end SyntaxTree
end TableLang
