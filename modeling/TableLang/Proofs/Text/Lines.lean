import Mathlib.Tactic.SplitIfs
import TableLang.Text.Quoted

/-! Texts of several lines, taken apart again: the lines are found where none of them holds a line
end, and quoted text never does. -/
namespace TableLang.Text

theorem ofLines_append (first second : List String) :
    ofLines (first ++ second) = ofLines first ++ ofLines second := by
  rw [ofLines, ofLines, ofLines, List.map_append, String.join_append]

def lines (text : String) : List (List Char) := (text.toList.splitOn '\n').dropLast

theorem lines_ofLines {texts : List String} (h : ∀ t ∈ texts, '\n' ∉ t.toList) :
    lines (ofLines texts) = texts.map String.toList := by
  induction texts with
  | nil => rfl
  | cons t texts ih =>
    have hfirst : ∀ c ∈ t.toList, (c == '\n') = false := by
      intro c hc
      have hne : c ≠ '\n' := fun heq => h t (by simp) (heq ▸ hc)
      simpa using hne
    have hrest := ih fun u hu => h u (List.mem_cons_of_mem t hu)
    have hsplit := List.splitOnP_append_cons_of_forall_mem hfirst '\n' rfl (ofLines texts).toList
    have htext : (ofLines (t :: texts)).toList = t.toList ++ '\n' :: (ofLines texts).toList := by
      simp [ofLines]
    rw [lines, List.splitOn_eq_splitOnP] at hrest ⊢
    rw [htext, hsplit, List.dropLast_cons_of_ne_nil (List.splitOnP_ne_nil _ _), hrest,
      List.map_cons]

theorem newline_notMem_toDigits (n : Nat) : '\n' ∉ Nat.toDigits 16 n := by
  induction n using Nat.strongRecOn with
  | ind n ih =>
    have hdigit : ∀ d, '\n' ≠ Nat.digitChar d := fun d => (Nat.digitChar_ne '\n' rfl).symm
    rw [Nat.toDigits_eq_if (by decide)]
    by_cases hsmall : n < 16
    · simp [hsmall, hdigit]
    · simp [hsmall, hdigit, ih (n / 16) (by omega)]

theorem newline_notMem_escaped {delimiter : Char} (hdelimiter : delimiter ≠ '\n') (c : Char) :
    '\n' ∉ escaped delimiter c := by
  have hcode : '\n' ∉ codePoint c := by simp [codePoint, newline_notMem_toDigits]
  have hself : isPrintable c = true → '\n' ≠ c := by
    rintro hprintable rfl
    exact absurd hprintable (by decide)
  unfold escaped
  split_ifs with h₁ h₂ h₃ h₄ h₅ h₆ h₇
  all_goals simp [hcode, hdelimiter.symm]
  exact hself h₇

theorem newline_notMem_quoted (cs : List Char) : '\n' ∉ (quoted cs).toList := by
  simp [quoted, newline_notMem_escaped]

end TableLang.Text
