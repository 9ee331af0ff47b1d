import TableLang.Proofs.Grammar.Exact

/-! Where the clauses of a sentence begin and how deep they are nested. The approach to a depth is
the text before the first clause nested so deep. Main statements: the approach ends where a clause
nested so deep begins, and no other clause nested so deep begins before. -/
namespace TableLang

namespace Grammar.Derivation

mutual
/-- The clauses in a derivation that begins at offset `start` within `outer` clauses: how deep each
is nested and where it begins. -/
def clauses (outer start : Nat) : Derivation → List (Nat × Nat)
  | char _ => []
  | node label parts =>
    if label = .production .whereClause then
      (outer + 1, start) :: clausesAll (outer + 1) start parts
    else clausesAll outer start parts

def clausesAll (outer start : Nat) : List Derivation → List (Nat × Nat)
  | [] => []
  | t :: ts => clauses outer start t ++ clausesAll outer (start + t.text.length) ts
end

@[simp]
theorem clausesAll_append (outer start : Nat) (ts us : List Derivation) :
    clausesAll outer start (ts ++ us) =
      clausesAll outer start ts ++ clausesAll outer (start + (textAll ts).length) us := by
  induction ts generalizing start with
  | nil => rfl
  | cons t ts ih => simp [clausesAll, textAll, ih, Nat.add_assoc]

@[simp]
theorem clausesAll_chars (outer start : Nat) (cs : List Char) :
    clausesAll outer start (cs.map char) = [] := by
  induction cs generalizing start with
  | nil => rfl
  | cons c cs ih => simp [clausesAll, clauses, ih]

mutual
/-- Without nesting there are no clauses. -/
theorem clauses_eq_nil (outer start : Nat) :
    (t : Derivation) → t.nesting = 0 → t.clauses outer start = []
  | char _, _ => rfl
  | node label parts, h => by
    rw [nesting] at h
    rw [clauses]
    by_cases hlabel : label = .production .whereClause
    · rw [if_pos hlabel] at h
      omega
    · rw [if_neg hlabel] at h ⊢
      exact clausesAll_eq_nil outer start parts h

theorem clausesAll_eq_nil (outer start : Nat) :
    (ts : List Derivation) → nestingAll ts = 0 → clausesAll outer start ts = []
  | [], _ => rfl
  | t :: ts, h => by
    rw [nestingAll] at h
    rw [clausesAll, clauses_eq_nil outer start t (by omega),
      clausesAll_eq_nil outer _ ts (by omega), List.append_nil]
end

mutual
theorem le_of_mem_clauses {outer k p : Nat} (start : Nat) :
    (t : Derivation) → (k, p) ∈ t.clauses outer start → start ≤ p
  | char _, h => by cases h
  | node label parts, h => by
    rw [clauses] at h
    split at h
    · obtain h | h := List.mem_cons.1 h
      · exact Nat.le_of_eq (Prod.mk.inj h).2.symm
      · exact le_of_mem_clausesAll start parts h
    · exact le_of_mem_clausesAll start parts h

theorem le_of_mem_clausesAll {outer k p : Nat} (start : Nat) :
    (ts : List Derivation) → (k, p) ∈ clausesAll outer start ts → start ≤ p
  | [], h => by cases h
  | t :: ts, h => by
    rw [clausesAll] at h
    obtain h | h := List.mem_append.1 h
    · exact le_of_mem_clauses start t h
    · exact Nat.le_trans (Nat.le_add_right ..) (le_of_mem_clausesAll _ ts h)
end

mutual
/-- A clause lies in a clause of every smaller depth, which begins no later. -/
theorem exists_mem_clauses {k p j : Nat} (start outer : Nat) (hj : outer < j) (hjk : j ≤ k) :
    (t : Derivation) → (k, p) ∈ t.clauses outer start → ∃ q, q ≤ p ∧ (j, q) ∈ t.clauses outer start
  | char _, h => by cases h
  | node label parts, h => by
    have hstart := le_of_mem_clauses start (node label parts) h
    rw [clauses] at h ⊢
    split
    case isTrue hlabel =>
      rw [if_pos hlabel] at h
      by_cases houter : j = outer + 1
      · exact ⟨start, hstart, by simp [houter]⟩
      · have h : (k, p) ∈ clausesAll (outer + 1) start parts := by
          obtain h | h := List.mem_cons.1 h
          · have hk := (Prod.mk.inj h).1
            omega
          · exact h
        obtain ⟨q, hq, hmem⟩ := exists_mem_clausesAll start (outer + 1) (by omega) hjk parts h
        exact ⟨q, hq, List.mem_cons_of_mem _ hmem⟩
    case isFalse hlabel =>
      rw [if_neg hlabel] at h
      exact exists_mem_clausesAll start outer hj hjk parts h

theorem exists_mem_clausesAll {k p j : Nat} (start outer : Nat) (hj : outer < j) (hjk : j ≤ k) :
    (ts : List Derivation) → (k, p) ∈ clausesAll outer start ts →
      ∃ q, q ≤ p ∧ (j, q) ∈ clausesAll outer start ts
  | [], h => by cases h
  | t :: ts, h => by
    rw [clausesAll] at h ⊢
    obtain h | h := List.mem_append.1 h
    · obtain ⟨q, hq, hmem⟩ := exists_mem_clauses start outer hj hjk t h
      exact ⟨q, hq, List.mem_append_left _ hmem⟩
    · obtain ⟨q, hq, hmem⟩ := exists_mem_clausesAll _ outer hj hjk ts h
      exact ⟨q, hq, List.mem_append_right _ hmem⟩
end

end Grammar.Derivation

namespace Sentence
open Grammar Grammar.Derivation

mutual
/-- The text of a clause before the first clause in it that is nested in `depth` others; that is
the clause itself if `depth` is 0. -/
def Clause.approach : (depth : Nat) → Clause → List Char
  | 0, _ => []
  | _ + 1, .predicate .. => []
  | depth + 1, .group c before parts =>
    c.name.toList ++ (before.chars ++ ('(' :: parts.approach depth))

def Parts.approach (depth : Nat) : Parts → List Char
  | .last before clause _ => before.chars ++ clause.approach depth
  | .more before clause after others =>
    before.chars ++
      if depth < clause.depth then clause.approach depth
      else clause.text ++ (after.chars ++ (',' :: others.approach depth))
end

def Filter.approach (depth : Nat) (f : Filter) : List Char :=
  f.before.text ++ ("where".toList ++ (f.after.text ++ f.clause.approach depth))

def approach (depth : Nat) (s : Sentence) : List Char :=
  s.lead.chars ++ ("select".toList ++ (s.gap.text ++ (s.key.text ++
    (s.filter.map (Filter.approach depth)).getD [])))

mutual
/-- The approach ends where a clause begins. -/
theorem Clause.text_eq_approach : (depth : Nat) → (c : Clause) → depth < c.depth →
    ∃ (inner : Clause) (after : List Char), c.text = c.approach depth ++ (inner.text ++ after)
  | 0, c, _ => ⟨c, [], by simp [Clause.approach]⟩
  | depth + 1, .predicate name before opening first later, h => by
    rw [Clause.depth] at h
    omega
  | depth + 1, .group c before parts, h => by
    obtain ⟨inner, after, htext⟩ :=
      Parts.text_eq_approach depth parts (Nat.lt_of_succ_lt_succ h)
    exact ⟨inner, after ++ [')'], by simp [Clause.text, Clause.approach, htext]⟩

theorem Parts.text_eq_approach : (depth : Nat) → (ps : Parts) → depth < ps.depth →
    ∃ (inner : Clause) (after : List Char), ps.text = ps.approach depth ++ (inner.text ++ after)
  | depth, .last before clause after, h => by
    obtain ⟨inner, more, htext⟩ := Clause.text_eq_approach depth clause h
    exact ⟨inner, more ++ after.chars, by simp [Parts.text, Parts.approach, htext]⟩
  | depth, .more before clause after others, h => by
    rw [Parts.depth] at h
    by_cases hclause : depth < clause.depth
    · obtain ⟨inner, more, htext⟩ := Clause.text_eq_approach depth clause hclause
      exact ⟨inner, more ++ (after.chars ++ (',' :: others.text)), by
        simp [Parts.text, Parts.approach, hclause, htext]⟩
    · obtain ⟨inner, more, htext⟩ := Parts.text_eq_approach depth others (by omega)
      exact ⟨inner, more, by simp [Parts.text, Parts.approach, hclause, htext]⟩
end

theorem text_eq_approach {depth : Nat} {s : Sentence} (h : depth < s.depth) :
    ∃ (inner : Clause) (after : List Char), s.text = s.approach depth ++ (inner.text ++ after) := by
  obtain ⟨lead, gap, key, filter, limit⟩ := s
  cases filter with
  | none => exact absurd h (Nat.not_lt_zero _)
  | some f =>
    obtain ⟨inner, after, htext⟩ := f.clause.text_eq_approach depth h
    exact ⟨inner, after ++ (limit.map Limit.text).getD [], by
      simp [Sentence.text, approach, Filter.text, Filter.approach, htext]⟩

@[simp]
theorem Blanks.clauses_derivation (outer start : Nat) (b : Blanks) :
    b.derivation.clauses outer start = [] :=
  clauses_eq_nil _ _ _ b.nesting_derivation

@[simp]
theorem Gap.clauses_derivation (outer start : Nat) (g : Gap) :
    g.derivation.clauses outer start = [] :=
  clauses_eq_nil _ _ _ g.nesting_derivation

theorem Clause.clauses_predicate (outer start : Nat) (name : Comparison) (before opening : Blanks)
    (first : Value) (later : List LaterValue) :
    (Clause.predicate name before opening first later).derivation.clauses outer start =
      [(outer + 1, start)] := by
  have hlater := clausesAll_eq_nil (outer + 1)
  simp [Clause.derivation, clauseNode, clauses, clausesAll, hlater, nesting, nestingAll,
    nameDerivation, LaterValue.nestingAll_flatMap, clauses_eq_nil]

theorem Clause.clauses_group (outer start : Nat) (c : Connective) (before : Blanks)
    (parts : Parts) :
    (Clause.group c before parts).derivation.clauses outer start =
      (outer + 1, start) :: clausesAll (outer + 1)
        (start + (c.name.toList.length + (before.chars.length + 1))) parts.derivations := by
  simp [Clause.derivation, clauseNode, clauses, clausesAll, Derivation.text, textAll, Nat.add_assoc]

theorem Parts.clausesAll_last (outer start : Nat) (before : Blanks) (clause : Clause)
    (after : Blanks) :
    clausesAll outer start (Parts.last before clause after).derivations =
      clause.derivation.clauses outer (start + before.chars.length) := by
  simp [Parts.derivations, clausesAll]

theorem Parts.clausesAll_more (outer start : Nat) (before : Blanks) (clause : Clause)
    (after : Blanks) (others : Parts) :
    clausesAll outer start (Parts.more before clause after others).derivations =
      clause.derivation.clauses outer (start + before.chars.length) ++
        clausesAll outer (start + (before.chars.length + (clause.text.length +
          (after.chars.length + 1)))) others.derivations := by
  simp [Parts.derivations, clausesAll, clauses, Derivation.text, Nat.add_assoc]

theorem Clause.length_approach_group (depth : Nat) (c : Connective) (before : Blanks)
    (parts : Parts) :
    ((Clause.group c before parts).approach (depth + 1)).length =
      c.name.toList.length + (before.chars.length + 1) + (parts.approach depth).length := by
  simp only [Clause.approach, List.length_append, List.length_cons]
  omega

theorem Parts.length_approach_more {depth : Nat} {clause : Clause} (h : ¬ depth < clause.depth)
    (before after : Blanks) (others : Parts) :
    ((Parts.more before clause after others).approach depth).length =
      before.chars.length + (clause.text.length + (after.chars.length + 1)) +
        (others.approach depth).length := by
  simp only [Parts.approach, if_neg h, List.length_append, List.length_cons]
  omega

mutual
/-- Where the approach to a depth ends, a clause nested so deep begins. -/
theorem Clause.mem_clauses : (depth : Nat) → (c : Clause) → depth < c.depth →
    (outer start : Nat) →
    (outer + depth + 1, start + (c.approach depth).length) ∈ c.derivation.clauses outer start
  | 0, .predicate name before opening first later, _, outer, start => by
    simp [Clause.clauses_predicate, Clause.approach]
  | 0, .group c before parts, _, outer, start => by
    simp [Clause.clauses_group, Clause.approach]
  | depth + 1, .predicate name before opening first later, h, outer, start => by
    rw [Clause.depth] at h
    omega
  | depth + 1, .group c before parts, h, outer, start => by
    have hparts := Parts.mem_clauses depth parts (Nat.lt_of_succ_lt_succ h) (outer + 1)
      (start + (c.name.toList.length + (before.chars.length + 1)))
    have hdepth : outer + (depth + 1) + 1 = outer + 1 + depth + 1 := by omega
    rw [Nat.add_assoc start] at hparts
    rw [Clause.clauses_group, hdepth, Clause.length_approach_group]
    exact List.mem_cons_of_mem _ hparts

theorem Parts.mem_clauses : (depth : Nat) → (ps : Parts) → depth < ps.depth →
    (outer start : Nat) →
    (outer + depth + 1, start + (ps.approach depth).length) ∈ clausesAll outer start ps.derivations
  | depth, .last before clause after, h, outer, start => by
    have hclause := Clause.mem_clauses depth clause h outer (start + before.chars.length)
    rw [Parts.clausesAll_last, Parts.approach, List.length_append, ← Nat.add_assoc]
    exact hclause
  | depth, .more before clause after others, h, outer, start => by
    rw [Parts.depth] at h
    rw [Parts.clausesAll_more]
    by_cases hclause : depth < clause.depth
    · have hmem := Clause.mem_clauses depth clause hclause outer (start + before.chars.length)
      rw [Nat.add_assoc start] at hmem
      rw [Parts.approach, if_pos hclause, List.length_append]
      exact List.mem_append_left _ hmem
    · have hmem := Parts.mem_clauses depth others (by omega) outer
        (start + (before.chars.length + (clause.text.length + (after.chars.length + 1))))
      rw [Nat.add_assoc start] at hmem
      rw [Parts.length_approach_more hclause]
      exact List.mem_append_right _ hmem
end

mutual
/-- No clause nested so deep begins before the approach to its depth ends. -/
theorem Clause.approach_le : (depth : Nat) → (c : Clause) → {outer start p : Nat} →
    (outer + depth + 1, p) ∈ c.derivation.clauses outer start →
    depth < c.depth ∧ start + (c.approach depth).length ≤ p
  | 0, .predicate name before opening first later, outer, start, p, h =>
    ⟨by simp [Clause.depth], le_of_mem_clauses start _ h⟩
  | 0, .group c before parts, outer, start, p, h =>
    ⟨by simp [Clause.depth], le_of_mem_clauses start _ h⟩
  | depth + 1, .predicate name before opening first later, outer, start, p, h => by
    rw [Clause.clauses_predicate, List.mem_singleton] at h
    have hdepth := (Prod.mk.inj h).1
    omega
  | depth + 1, .group c before parts, outer, start, p, h => by
    have hdepth : outer + (depth + 1) + 1 = outer + 1 + depth + 1 := by omega
    rw [Clause.clauses_group, hdepth] at h
    obtain h | h := List.mem_cons.1 h
    · have houter := (Prod.mk.inj h).1
      omega
    · obtain ⟨hdepth, hle⟩ := Parts.approach_le depth parts h
      rw [Clause.length_approach_group, ← Nat.add_assoc start]
      exact ⟨Nat.succ_lt_succ hdepth, hle⟩

theorem Parts.approach_le : (depth : Nat) → (ps : Parts) → {outer start p : Nat} →
    (outer + depth + 1, p) ∈ clausesAll outer start ps.derivations →
    depth < ps.depth ∧ start + (ps.approach depth).length ≤ p
  | depth, .last before clause after, outer, start, p, h => by
    rw [Parts.clausesAll_last] at h
    rw [Parts.approach, List.length_append, ← Nat.add_assoc]
    exact Clause.approach_le depth clause h
  | depth, .more before clause after others, outer, start, p, h => by
    rw [Parts.clausesAll_more] at h
    rw [Parts.depth]
    obtain h | h := List.mem_append.1 h
    · obtain ⟨hclause, hle⟩ := Clause.approach_le depth clause h
      rw [Parts.approach, if_pos hclause, List.length_append, ← Nat.add_assoc start]
      exact ⟨by omega, hle⟩
    · obtain ⟨hothers, hle⟩ := Parts.approach_le depth others h
      by_cases hclause : depth < clause.depth
      · -- The clause has one nested so deep itself, and the others begin after it.
        obtain ⟨inner, more, htext⟩ := Clause.text_eq_approach depth clause hclause
        have hlength := congrArg List.length htext
        rw [List.length_append] at hlength
        rw [Parts.approach, if_pos hclause, List.length_append]
        omega
      · rw [Parts.length_approach_more hclause, ← Nat.add_assoc start]
        exact ⟨by omega, hle⟩
end

/-- The clauses of a sentence are those of its filter. -/
theorem clauses_derivation (s : Sentence) :
    s.derivation.clauses 0 0 = (s.filter.map fun f => f.clause.derivation.clauses 0
      (s.lead.chars.length + ("select".toList.length + (s.gap.text.length + (s.key.text.length +
        (f.before.text.length + ("where".toList.length + f.after.text.length))))))).getD [] := by
  obtain ⟨lead, gap, key, filter, limit⟩ := s
  have hkey := fun outer start => clauses_eq_nil outer start key.derivation key.nesting_derivation
  have hlimit : ∀ l : Limit, nestingAll l.derivations = 0 := fun l => by
    simp [Limit.derivations, nesting, nestingAll]
  cases filter <;> cases limit <;>
    simp [derivation, selectDerivation, Filter.derivations, clauses, clausesAll,
      Derivation.text, textAll, hkey, hlimit, clausesAll_eq_nil, Nat.add_assoc]

theorem length_approach {s : Sentence} {f : Filter} (hf : s.filter = some f) (depth : Nat) :
    (s.approach depth).length =
      s.lead.chars.length + ("select".toList.length + (s.gap.text.length + (s.key.text.length +
        (f.before.text.length + ("where".toList.length + f.after.text.length))))) +
        (f.clause.approach depth).length := by
  simp only [approach, Filter.approach, hf, Option.map_some, Option.getD_some, List.length_append]
  omega

theorem mem_clauses {depth : Nat} {s : Sentence} (h : depth < s.depth) :
    (depth + 1, (s.approach depth).length) ∈ s.derivation.clauses 0 0 := by
  cases hf : s.filter with
  | none =>
    rw [Sentence.depth, hf] at h
    exact absurd h (Nat.not_lt_zero _)
  | some f =>
    rw [Sentence.depth, hf] at h
    have hmem := f.clause.mem_clauses depth h 0
    rw [s.clauses_derivation, hf, length_approach hf]
    simpa using hmem _

theorem approach_le {depth p : Nat} {s : Sentence}
    (h : (depth + 1, p) ∈ s.derivation.clauses 0 0) :
    depth < s.depth ∧ (s.approach depth).length ≤ p := by
  rw [s.clauses_derivation] at h
  cases hf : s.filter with
  | none =>
    rw [hf] at h
    cases h
  | some f =>
    rw [hf, Option.map_some, Option.getD_some, ← Nat.zero_add depth] at h
    rw [length_approach hf, Sentence.depth, hf]
    exact f.clause.approach_le depth h

end Sentence
end TableLang
