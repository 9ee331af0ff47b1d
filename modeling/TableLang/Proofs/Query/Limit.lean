import TableLang.Proofs.Draft.Build
import TableLang.Proofs.Query.FirstFault
import TableLang.Proofs.Text.Numeral

/-! The limit of a selection. Main statement: whatever text a draft is given as its limit, compiling
it takes exactly the number that the text denotes, or names the text and the first thing that is
wrong with it. -/
namespace TableLang

namespace Draft
variable {d e : Draft}

theorem limit_of_editClause {change : ClauseDraft → Except Fault ClauseDraft}
    (h : d.editClause change = .ok e) : e.limit = d.limit := by
  obtain ⟨id, outer, c, c', -, -, -, rfl⟩ := editClause_eq_ok h
  rfl

/-- Only one edit concerns the limit. -/
theorem limit_of_apply {edit : Edit} (h : d.apply edit = .ok e) (hother : ∀ u, edit ≠ .setLimit u) :
    e.limit = d.limit := by
  cases edit with
  | setLimit text => exact absurd rfl (hother text)
  | chooseSelect =>
    cases h
    rfl
  | nameTable key =>
    cases h
    rfl
  | openRoot =>
    cases h
    rfl
  | enterClause =>
    simp only [apply] at h
    cases hedit : d.editClause fun c =>
        .ok { c with children := c.children ++ [d.clauses.size] } with
    | error fault =>
      rw [hedit] at h
      cases h
    | ok e' =>
      rw [hedit] at h
      cases h
      exact (limit_of_editClause hedit : e'.limit = d.limit)
  | leaveClause =>
    simp only [apply] at h
    split at h
    · cases h
    · cases h
    · cases h
      rfl
  | becomePredicate => exact limit_of_editClause h
  | becomeGroup connective => exact limit_of_editClause h
  | nameComparison word => exact limit_of_editClause h
  | useRowKey => exact limit_of_editClause h
  | addKey key => exact limit_of_editClause h
  | addLiteral text => exact limit_of_editClause h

theorem limit_of_applyAll {edits : List Edit} (h : d.applyAll edits = .ok e)
    (hother : ∀ u, Edit.setLimit u ∉ edits) : e.limit = d.limit := by
  induction edits generalizing d with
  | nil =>
    cases h
    rfl
  | cons edit edits ih =>
    cases hedit : d.apply edit with
    | error fault =>
      simp only [applyAll, List.foldlM_cons, hedit] at h
      cases h
    | ok d' =>
      rw [applyAll_cons hedit] at h
      rw [ih h fun u hu => hother u (List.mem_cons_of_mem _ hu)]
      exact limit_of_apply hedit fun u hu => hother u (hu ▸ List.mem_cons_self ..)

/-- The limit is the text that was given last. -/
theorem limit_of_setLimit {before after : List Edit} {text : String}
    (h : d.applyAll (before ++ .setLimit text :: after) = .ok e)
    (hlast : ∀ u, Edit.setLimit u ∉ after) : e.limit = text := by
  cases hbefore : d.applyAll before with
  | error fault =>
    simp only [applyAll] at hbefore
    simp only [applyAll, List.foldlM_append, hbefore] at h
    cases h
  | ok d' =>
    rw [applyAll_append hbefore, applyAll_cons rfl] at h
    exact limit_of_applyAll h hlast

structure TakesLimit (d : Draft) (n : Nat) : Prop where
  compileLimit_eq : d.compileLimit = .ok n
  compile_eq : d.compile =
    (d.compileCondition.map fun c => ⟨d.tableKey, .select ⟨n, c⟩, d⟩).mapError .inSelect

theorem LimitIs.takesLimit {n : Nat} (h : d.LimitIs n) (hselect : d.command = "select") :
    d.TakesLimit n :=
  ⟨h.compileLimit_eq, h.compile_eq hselect⟩

end Draft

/-- A selection is compiled with the number that the text of its limit denotes, and with 0 if the
text is empty. Every other text is refused, as too large if the digits it begins with, after a plus
sign or none, make a number that does not fit into 64 bits, and for an invalid digit if not. -/
theorem limit_is_read_exactly (start d : Draft) (before after : List Edit) (text : String)
    (hbuilt : start.applyAll (before ++ .setLimit text :: after) = .ok d)
    (hlast : ∀ u, Edit.setLimit u ∉ after) (hselect : d.command = "select") :
    (text = "" → d.TakesLimit 0) ∧
    (∀ n, Text.Denotes text.toList n → n < 2 ^ 64 → d.TakesLimit n) ∧
    (text ≠ "" → (∀ n, Text.Denotes text.toList n → 2 ^ 64 ≤ n) →
      d.compile = .error (.inSelect (.badLimit text
        (if 2 ^ 64 ≤ Text.decimalValue ((Text.unsigned text.toList).takeWhile Char.isDigit) then
          .tooLarge
        else .invalidDigit)))) := by
  obtain rfl := Draft.limit_of_setLimit hbuilt hlast
  refine ⟨fun hempty => ?_, fun n hdenotes hfits => ?_, Draft.compile_of_badLimit hselect⟩
  · exact Draft.LimitIs.takesLimit (.inl ⟨hempty, rfl⟩) hselect
  · exact Draft.LimitIs.takesLimit (.inr ⟨hdenotes, hfits⟩) hselect

theorem limit_is_read_exactly_at_bound :
    Draft.applyAll {} ([.chooseSelect] ++ .setLimit "+018446744073709551615" :: [.nameTable "a"]) =
        .ok { command := "select", tableKey := "a", limit := "+018446744073709551615" } ∧
      Text.Denotes "+018446744073709551615".toList 18446744073709551615 ∧
      Draft.TakesLimit { command := "select", tableKey := "a", limit := "+018446744073709551615" }
        18446744073709551615 ∧
      Draft.applyAll {} ([.chooseSelect] ++ .setLimit "18446744073709551616x" :: []) =
        .ok { command := "select", limit := "18446744073709551616x" } ∧
      Draft.compile { command := "select", limit := "18446744073709551616x" } =
        .error (.inSelect (.badLimit "18446744073709551616x" .tooLarge)) := by
  have hbuilt : Draft.applyAll {}
      ([.chooseSelect] ++ .setLimit "+018446744073709551615" :: [.nameTable "a"]) =
      .ok { command := "select", tableKey := "a", limit := "+018446744073709551615" } := rfl
  have hdenotes : Text.Denotes "+018446744073709551615".toList 18446744073709551615 :=
    ⟨['+'], "018446744073709551615".toList, .inr rfl, rfl, by decide,
      List.all_eq_true.1 (by decide +kernel), by decide +kernel⟩
  have hbuilt' : Draft.applyAll {} ([.chooseSelect] ++ .setLimit "18446744073709551616x" :: []) =
      .ok { command := "select", limit := "18446744073709551616x" } := rfl
  have hrefused := (limit_is_read_exactly {} _ [.chooseSelect] [] _ hbuilt' (by simp) rfl).2.2
    (by decide) fun n hn => absurd ((Text.denotes_iff.1 hn).2.1 'x' (by decide +kernel)) (by decide)
  rw [if_pos (by decide +kernel)] at hrefused
  exact ⟨hbuilt, hdenotes, (limit_is_read_exactly {} _ [.chooseSelect] [.nameTable "a"] _ hbuilt
    (by simp) rfl).2.1 _ hdenotes (by decide), hbuilt', hrefused⟩

end TableLang
