import TableLang.Proofs.Draft.Script

/-! What the edits of a sentence make of a draft. The clauses of a sentence come to stand one after
the other behind the clauses that were there, each before the clauses in it, and nothing else in the
array of clauses changes. -/
namespace TableLang

namespace Sentence

def Value.key? : Value → Option String
  | key k => some (String.ofList k.text)
  | _ => none

def Value.literal? : Value → Option String
  | literal chars _ => some (String.ofList chars)
  | _ => none

def Value.isRowKey : Value → Bool
  | rowKey => true
  | _ => false

mutual
def Clause.size : Clause → Nat
  | .predicate .. => 1
  | .group _ _ parts => parts.size + 1

def Parts.size : Parts → Nat
  | .last _ clause _ => clause.size
  | .more _ clause _ others => clause.size + others.size
end

def Parts.ids (id : Nat) : Parts → List Nat
  | .last _ _ _ => [id]
  | .more _ clause _ others => id :: others.ids (id + clause.size)

def predicateDraft (name : Comparison) (vs : List Value) : PredicateDraft :=
  ⟨name.name, vs.filterMap Value.key?, vs.filterMap Value.literal?, vs.any Value.isRowKey⟩

def extendDraft (p : PredicateDraft) (vs : List Value) : PredicateDraft :=
  { p with
    keys := p.keys ++ vs.filterMap Value.key?
    literals := p.literals ++ vs.filterMap Value.literal?
    usesRowKey := p.usesRowKey || vs.any Value.isRowKey }

theorem extendDraft_extendDraft (p : PredicateDraft) (us vs : List Value) :
    extendDraft (extendDraft p us) vs = extendDraft p (us ++ vs) := by
  simp [extendDraft, Bool.or_assoc]

def Clause.draft (id : Nat) : Clause → ClauseDraft
  | .predicate name _ _ first later =>
    { command := ClauseKind.predicate.name
      predicate := some (predicateDraft name (first :: later.map LaterValue.value)) }
  | .group c _ parts => { command := c.name, children := parts.ids (id + 1) }

mutual
def Clause.drafts (id : Nat) : Clause → List ClauseDraft
  | .predicate name before opening first later =>
    [(Clause.predicate name before opening first later).draft id]
  | .group c before parts => (Clause.group c before parts).draft id :: parts.drafts (id + 1)

def Parts.drafts (id : Nat) : Parts → List ClauseDraft
  | .last _ clause _ => clause.drafts id
  | .more _ clause _ others => clause.drafts id ++ others.drafts (id + clause.size)
end

mutual
@[simp]
theorem Clause.length_drafts (id : Nat) : (c : Clause) → (c.drafts id).length = c.size
  | .predicate .. => rfl
  | .group c before parts => by
    simp [Clause.drafts, Clause.size, Parts.length_drafts (id + 1) parts]

@[simp]
theorem Parts.length_drafts (id : Nat) : (ps : Parts) → (ps.drafts id).length = ps.size
  | .last before clause after => by
    simp [Parts.drafts, Parts.size, Clause.length_drafts id clause]
  | .more before clause after others => by
    simp [Parts.drafts, Parts.size, Clause.length_drafts id clause,
      Parts.length_drafts (id + clause.size) others]
end

end Sentence

namespace Draft

@[simp]
theorem applyAll_nil (d : Draft) : d.applyAll [] = .ok d := rfl

theorem applyAll_cons {d e : Draft} {edit : Edit} (h : d.apply edit = .ok e) (edits : List Edit) :
    d.applyAll (edit :: edits) = e.applyAll edits := by
  simp only [applyAll, List.foldlM_cons, h]
  rfl

theorem applyAll_append {d e : Draft} {es : List Edit} (h : d.applyAll es = .ok e)
    (fs : List Edit) : d.applyAll (es ++ fs) = e.applyAll fs := by
  simp only [applyAll] at h
  simp only [applyAll, List.foldlM_append, h]
  rfl

/-- A draft whose innermost clause is `c`, with the clauses `outer` before it and `inner` after it;
`path` leads to the clause around it. -/
def filling (d : Draft) (outer : List ClauseDraft) (c : ClauseDraft) (inner : List ClauseDraft)
    (path : List Nat) : Draft :=
  { d with clauses := (outer ++ c :: inner).toArray, path := outer.length :: path }

variable (d : Draft) (outer inner : List ClauseDraft) (c : ClauseDraft) (path : List Nat)

/-- A change of the innermost clause leaves all others as they are. -/
theorem editClause_filling (change : ClauseDraft → Except Fault ClauseDraft) :
    (d.filling outer c inner path).editClause change =
      (change c).map fun changed => d.filling outer changed inner path := by
  cases h : change c <;> simp [editClause, filling, h, bind, Except.bind, Except.map]

theorem apply_enterClause :
    (d.filling outer c inner path).apply .enterClause =
      .ok (d.filling
        (outer ++ { c with children := c.children ++ [outer.length + 1 + inner.length] } :: inner)
        {} [] (outer.length :: path)) := by
  have hsize : (d.filling outer c inner path).clauses.size = outer.length + 1 + inner.length := by
    simp only [filling, List.size_toArray, List.length_append, List.length_cons]
    omega
  rw [apply, hsize, editClause_filling]
  simp [filling, bind, Except.bind, Except.map]
  omega

theorem apply_leaveClause (c' : ClauseDraft) (inner' : List ClauseDraft) :
    (d.filling (outer ++ c :: inner) c' inner' (outer.length :: path)).apply .leaveClause =
      .ok (d.filling outer c (inner ++ c' :: inner') path) := by
  simp [apply, filling]

theorem apply_becomePredicate :
    (d.filling outer c inner path).apply .becomePredicate =
      .ok (d.filling outer
        { c with command := ClauseKind.predicate.name, predicate := some {} } inner path) :=
  editClause_filling d outer inner c path _

theorem apply_becomeGroup (connective : Connective) :
    (d.filling outer c inner path).apply (.becomeGroup connective) =
      .ok (d.filling outer { c with command := connective.name } inner path) :=
  editClause_filling d outer inner c path _

theorem editPredicate_filling {p : PredicateDraft} (h : c.predicate = some p)
    (change : PredicateDraft → PredicateDraft) :
    (d.filling outer c inner path).editPredicate change =
      .ok (d.filling outer { c with predicate := some (change p) } inner path) := by
  rw [editPredicate, editClause_filling, h]
  rfl

open Sentence

theorem apply_nameComparison {p : PredicateDraft} (h : c.predicate = some p) (word : String) :
    (d.filling outer c inner path).apply (.nameComparison word) =
      .ok (d.filling outer { c with predicate := some { p with command := word } } inner path) :=
  editPredicate_filling d outer inner c path h _

theorem apply_value {p : PredicateDraft} (h : c.predicate = some p) (v : Value) :
    (d.filling outer c inner path).apply v.edit =
      .ok (d.filling outer { c with predicate := some (extendDraft p [v]) } inner path) := by
  -- Each kind of value adds to one of the three fields and to no other.
  cases v <;>
    rw [Value.edit, apply, editPredicate_filling d outer inner c path h] <;>
    simp [extendDraft, Value.key?, Value.literal?, Value.isRowKey, List.filterMap_cons]

theorem applyAll_values {p : PredicateDraft} (h : c.predicate = some p) (vs : List Value) :
    (d.filling outer c inner path).applyAll (vs.map Value.edit) =
      .ok (d.filling outer { c with predicate := some (extendDraft p vs) } inner path) := by
  induction vs generalizing c p with
  | nil =>
    obtain ⟨command, children, predicate⟩ := c
    subst h
    simp [extendDraft]
  | cons v vs ih =>
    rw [List.map_cons, applyAll_cons (apply_value d outer inner c path h v), ih _ rfl]
    simp [extendDraft_extendDraft]

mutual
/-- The edits of a clause put it behind all clauses and make it the last clause in the innermost
one. -/
theorem applyAll_clause (d : Draft) (outer inner : List ClauseDraft) (c : ClauseDraft)
    (path : List Nat) : (clause : Clause) →
    (d.filling outer c inner path).applyAll clause.edits =
      .ok (d.filling outer
        { c with children := c.children ++ [outer.length + 1 + inner.length] }
        (inner ++ clause.drafts (outer.length + 1 + inner.length)) path)
  | .predicate name before opening first later => by
    have hvalues := applyAll_values d
      (outer ++ { c with children := c.children ++ [outer.length + 1 + inner.length] } :: inner) []
      { command := ClauseKind.predicate.name, predicate := some { command := name.name } }
      (outer.length :: path) rfl (first :: later.map LaterValue.value)
    rw [Clause.edits, List.cons_append, applyAll_cons (apply_enterClause d outer inner c path),
      List.cons_append, applyAll_cons (apply_becomePredicate ..), List.cons_append,
      applyAll_cons (apply_nameComparison _ _ _ _ _ rfl _), List.nil_append,
      applyAll_append hvalues, applyAll_cons (apply_leaveClause ..), applyAll_nil]
    simp [Clause.drafts, Clause.draft, predicateDraft, extendDraft]
  | .group connective before parts => by
    -- While the group is filled in, the clause around it belongs to the clauses before it.
    have hparts := applyAll_parts d
      (outer ++ { c with children := c.children ++ [outer.length + 1 + inner.length] } :: inner) []
      { command := connective.name } (outer.length :: path) parts
    rw [Clause.edits, List.cons_append, applyAll_cons (apply_enterClause d outer inner c path),
      List.cons_append, applyAll_cons (apply_becomeGroup ..), List.nil_append,
      applyAll_append hparts, applyAll_cons (apply_leaveClause ..), applyAll_nil]
    simp [Clause.drafts, Clause.draft, Nat.add_comm, Nat.add_left_comm]

theorem applyAll_parts (d : Draft) (outer inner : List ClauseDraft) (c : ClauseDraft)
    (path : List Nat) : (parts : Parts) →
    (d.filling outer c inner path).applyAll parts.edits =
      .ok (d.filling outer
        { c with children := c.children ++ parts.ids (outer.length + 1 + inner.length) }
        (inner ++ parts.drafts (outer.length + 1 + inner.length)) path)
  | .last before clause after => applyAll_clause d outer inner c path clause
  | .more before clause after others => by
    have hclause := applyAll_clause d outer inner c path clause
    rw [Parts.edits, applyAll_append hclause, applyAll_parts d outer _ _ path others]
    simp [Parts.ids, Parts.drafts, Nat.add_assoc]
end

end Draft

namespace Sentence
open Draft

def rootDraft (id : Nat) : ClauseDraft := { command := Connective.and.name, children := [id + 1] }

def Filter.drafts (id : Nat) (f : Filter) : List ClauseDraft :=
  rootDraft id :: f.clause.drafts (id + 1)

def Filter.fill (f : Filter) (d : Draft) : Draft :=
  { d with
    root := some d.clauses.size
    path := [d.clauses.size]
    clauses := d.clauses ++ (f.drafts d.clauses.size).toArray }

def fill (s : Sentence) (d : Draft) : Draft :=
  { (s.filter.map fun f => f.fill d).getD d with
    command := Operation.select.name
    tableKey := String.ofList s.key.text
    limit := (s.limit.map fun l => String.ofList l.numeral.text).getD d.limit }

theorem Filter.applyAll_edits (f : Filter) (d : Draft) :
    d.applyAll (.openRoot :: f.clause.edits) = .ok (f.fill d) := by
  have hroot : d.apply .openRoot =
      .ok ({ d with root := some d.clauses.size }.filling d.clauses.toList
        { command := Connective.and.name } [] []) := by
    simp [apply, filling, ← Array.toList_inj]
  rw [applyAll_cons hroot, applyAll_clause]
  simp [filling, Filter.fill, Filter.drafts, rootDraft]

/-- The edits of a sentence can be applied to any draft. -/
theorem applyAll_edits (s : Sentence) (d : Draft) : d.applyAll s.edits = .ok (s.fill d) := by
  obtain ⟨lead, gap, key, filter, limit⟩ := s
  rw [edits, applyAll_cons rfl]
  cases filter with
  | none => cases limit <;> rfl
  | some f =>
    rw [Option.map_some, Option.getD_some, applyAll_append (f.applyAll_edits _)]
    cases limit <;> rfl

/-- Replaying the tokens of a sentence never fails. -/
theorem replay_tokens (s : Sentence) (d : Draft) :
    d.replay (s.derivation.tokens 0) s.text = .ok (s.fill d) := by
  rw [replay, ← s.text_derivation, Grammar.Derivation.ofTokens_eq, s.edits_derivation, follow,
    s.applyAll_edits]
  rfl

end Sentence
end TableLang
