import TableLang.Grammar.Derivation
import TableLang.Proofs.SyntaxTree.Nests
import TableLang.Proofs.Text.Lines

/-! Printing the nesting of tokens. The trees that tokens describe hold every token that covers
something, once and in the order of the tokens. So the printing fails exactly where one of these
tokens does not fit the input, which none of a derivation does. -/
namespace TableLang

def Token.Fits (t : Token) (length : Nat) : Prop := t.start ≤ t.stop ∧ t.stop ≤ length

namespace SyntaxTree
open TableLang.Tree

/-- The line for a token at the given depth, without its end: a blank for each level, the name of
the label, between the codes that turn blue on and off when `highlight` is set, and the quoted text
of the span. -/
def rowText (highlight : Bool) (input : List Char) (row : Nat × Token) : String :=
  String.ofList (List.replicate row.1 ' ') ++
    (if highlight then "\x1b[34m" ++ row.2.label.name ++ "\x1b[m" else row.2.label.name) ++ " " ++
    Text.quoted ((input.drop row.2.start).take (row.2.stop - row.2.start))

variable (highlight : Bool) (input : List Char)

theorem line_eq_ok_iff {depth : Nat} {t : Token} {text : String} :
    line highlight input depth t = .ok text ↔
      t.Fits input.length ∧ text = Text.ofLines [rowText highlight input (depth, t)] := by
  rw [line, slice?, Token.Fits]
  by_cases hfits : t.start ≤ t.stop ∧ t.stop ≤ input.length
  · simp [hfits, rowText, Label.shown, Text.ofLines, eq_comm]
  · simp [hfits]

/-- When each of two texts is written under a condition of its own, both are under both. -/
theorem append_eq_ok_iff {first rest : Except Fault String} {p q : Prop} {a b text : String}
    (hfirst : ∀ {text}, first = .ok text ↔ p ∧ text = a)
    (hrest : ∀ {text}, rest = .ok text ↔ q ∧ text = b) :
    (do
      let x ← first
      let y ← rest
      .ok (x ++ y)) = .ok text ↔ (p ∧ q) ∧ text = a ++ b := by
  cases first with
  | error f =>
    have hp : ¬ p := fun hp => nomatch hfirst.2 ⟨hp, rfl⟩
    simp [bind, Except.bind, hp]
  | ok x =>
    obtain ⟨hp, rfl⟩ := hfirst.1 rfl
    cases rest with
    | error f =>
      have hq : ¬ q := fun hq => nomatch hrest.2 ⟨hq, rfl⟩
      simp [bind, Except.bind, hq]
    | ok y =>
      obtain ⟨hq, rfl⟩ := hrest.1 rfl
      simp [bind, Except.bind, hp, hq, eq_comm]

mutual
/-- A tree is printed exactly when all its tokens fit the input, and then line by line. -/
theorem print_eq_ok_iff : (t : Tree Token) → (depth : Nat) → {text : String} →
    (print highlight input depth t = .ok text ↔ (∀ k ∈ t.postorder, k.Fits input.length) ∧
      text = Text.ofLines ((t.levels depth).map (rowText highlight input)))
  | .node t parts, depth, text => by
    rw [print, append_eq_ok_iff (line_eq_ok_iff highlight input)
      (printAll_eq_ok_iff parts (depth + 1)), ← Text.ofLines_append, postorder, levels]
    simp [or_imp, forall_and, and_comm]

theorem printAll_eq_ok_iff : (ts : List (Tree Token)) → (depth : Nat) → {text : String} →
    (printAll highlight input depth ts = .ok text ↔
      (∀ k ∈ postorderForest ts, k.Fits input.length) ∧
        text = Text.ofLines ((levelsForest depth ts).map (rowText highlight input)))
  | [], depth, text => by simp [printAll, postorderForest, levelsForest, Text.ofLines, eq_comm]
  | t :: ts, depth, text => by
    rw [printAll, append_eq_ok_iff (print_eq_ok_iff t depth) (printAll_eq_ok_iff ts depth),
      ← Text.ofLines_append, postorderForest, levelsForest]
    simp [or_imp, forall_and]
end

/-- Tokens are printed over an input exactly when those that cover something fit it, and then line
by line. -/
theorem render_eq_ok_iff {tokens : List Token} {text : String} :
    render highlight input tokens = .ok text ↔
      (∀ t ∈ tokens, t.isEmpty = false → t.Fits input.length) ∧
        text = Text.ofLines
          ((levelsForest 0 (ofTokens tokens)).map (rowText highlight input)) := by
  rw [render, printAll_eq_ok_iff, (nests_ofTokens tokens).postorder_eq]
  simp

/-- Tokens can be printed over an input exactly when those that cover something fit it. -/
theorem exists_render_eq_ok_iff (tokens : List Token) :
    (∃ text, render highlight input tokens = .ok text) ↔
      ∀ t ∈ tokens, t.isEmpty = false → t.Fits input.length := by
  simp [render_eq_ok_iff]

end SyntaxTree

namespace Grammar.Derivation

mutual
/-- The tokens of a derivation fit any text that goes on at least as far as its own. -/
theorem fits_tokens : (t : Derivation) → (start : Nat) →
    ∀ k ∈ t.tokens start, k.Fits (start + t.text.length)
  | char _, _, k, hk => by cases hk
  | node label parts, start, k, hk => by
    rw [tokens, List.mem_append, List.mem_singleton] at hk
    obtain hk | rfl := hk
    · exact fits_tokensAll parts start k hk
    · exact ⟨Nat.le_add_right _ _, Nat.le_refl _⟩

theorem fits_tokensAll : (ts : List Derivation) → (start : Nat) →
    ∀ k ∈ tokensAll start ts, k.Fits (start + (textAll ts).length)
  | [], _, k, hk => by cases hk
  | t :: ts, start, k, hk => by
    rw [tokensAll, List.mem_append] at hk
    rw [textAll, List.length_append]
    obtain hk | hk := hk
    · have hfits := fits_tokens t start k hk
      exact ⟨hfits.1, Nat.le_trans hfits.2 (by omega)⟩
    · have hfits := fits_tokensAll ts (start + t.text.length) k hk
      rwa [Nat.add_assoc] at hfits
end

end Grammar.Derivation

end TableLang
