import Mathlib.Data.List.Chain
import Mathlib.Data.List.Nodup
import Mathlib.Logic.Relation
import TableLang.Draft.Edit

/-! The array of clauses of a draft holds trees. A clause stands before the clauses in it and is in
one other clause at most, and the path leads from the root down to the innermost clause, always by
the last clause of a clause. Every step in the construction of a draft keeps this, and it makes the
clauses below any clause a tree in which no index occurs twice. -/
namespace TableLang

inductive ClauseDraft.Change (c : ClauseDraft) : ClauseDraft → Prop where
  | predicate : c.Change { c with command := ClauseKind.predicate.name, predicate := some {} }
  | group (connective : Connective) : c.Change { c with command := connective.name }
  | comparison {p : PredicateDraft} (h : c.predicate = some p) (p' : PredicateDraft) :
    c.Change { c with predicate := some p' }

theorem ClauseDraft.Change.children_eq {c c' : ClauseDraft} (h : c.Change c') :
    c'.children = c.children := by
  cases h <;> rfl

namespace Draft

def opened (d : Draft) : Draft :=
  { d with
    root := some d.clauses.size
    path := [d.clauses.size]
    clauses := d.clauses.push { command := Connective.and.name } }

def replaced (d : Draft) (id : Nat) (c : ClauseDraft) : Draft :=
  { d with clauses := d.clauses.setIfInBounds id c }

def entered (d : Draft) (id : Nat) (c : ClauseDraft) : Draft :=
  { d with
    clauses := (d.clauses.setIfInBounds id
      { c with children := c.children ++ [d.clauses.size] }).push {}
    path := d.clauses.size :: d.path }

inductive Step (d : Draft) : Draft → Prop where
  | heading (command tableKey limit : String) (rows : List Row) :
    d.Step { d with command := command, tableKey := tableKey, limit := limit, rows := rows }
  | openRoot : d.Step d.opened
  | enterClause {id : Nat} {outer : List Nat} {c : ClauseDraft} (path : d.path = id :: outer)
    (clause : d.clauses[id]? = some c) : d.Step (d.entered id c)
  | leaveClause {id next : Nat} {outer : List Nat} (path : d.path = id :: next :: outer) :
    d.Step { d with path := next :: outer }
  | change {id : Nat} {outer : List Nat} {c c' : ClauseDraft} (path : d.path = id :: outer)
    (clause : d.clauses[id]? = some c) (changed : c.Change c') : d.Step (d.replaced id c')

/-- Drafts that edits make of an empty one, when the command may be replaced and rows may be added
at any time. -/
inductive Built : Draft → Prop where
  | empty : Built {}
  | apply {d e : Draft} {edit : Edit} (h : Built d) (applied : d.apply edit = .ok e) : Built e
  | withCommand {d : Draft} (h : Built d) (command : String) : Built (d.withCommand command)
  | addRow {d : Draft} (h : Built d) (row : Row) : Built (d.addRow row)

theorem editClause_eq_ok {d e : Draft} {change : ClauseDraft → Except Fault ClauseDraft}
    (h : d.editClause change = .ok e) :
    ∃ id outer c c', d.path = id :: outer ∧ d.clauses[id]? = some c ∧ change c = .ok c' ∧
      e = d.replaced id c' := by
  unfold editClause at h
  split at h
  · cases h
  · rename_i id outer hpath
    split at h
    · cases h
    · rename_i c hclause
      cases hchange : change c with
      | error fault =>
        rw [hchange] at h
        cases h
      | ok c' =>
        rw [hchange] at h
        cases h
        exact ⟨id, outer, c, c', hpath, hclause, hchange, rfl⟩

theorem step_of_editPredicate {d e : Draft} {change : PredicateDraft → PredicateDraft}
    (h : d.editPredicate change = .ok e) : d.Step e := by
  obtain ⟨id, outer, c, c', hpath, hclause, hchange, rfl⟩ := editClause_eq_ok h
  cases hp : c.predicate with
  | none =>
    simp only [hp] at hchange
    cases hchange
  | some p =>
    simp only [hp] at hchange
    cases hchange
    exact .change hpath hclause (.comparison hp (change p))

theorem step_of_apply {d e : Draft} {edit : Edit} (h : d.apply edit = .ok e) : d.Step e := by
  cases edit with
  | chooseSelect =>
    cases h
    exact .heading _ _ _ _
  | nameTable key =>
    cases h
    exact .heading _ _ _ _
  | setLimit text =>
    cases h
    exact .heading _ _ _ _
  | openRoot =>
    cases h
    exact .openRoot
  | enterClause =>
    simp only [apply] at h
    cases hedit : d.editClause fun c =>
        .ok { c with children := c.children ++ [d.clauses.size] } with
    | error fault =>
      rw [hedit] at h
      cases h
    | ok e' =>
      rw [hedit] at h
      cases h
      obtain ⟨id, outer, c, c', hpath, hclause, hchange, rfl⟩ := editClause_eq_ok hedit
      cases hchange
      exact .enterClause hpath hclause
  | leaveClause =>
    simp only [apply] at h
    split at h
    · cases h
    · cases h
    · rename_i id outer hne hpath
      cases outer with
      | nil => exact absurd rfl hne
      | cons next outer =>
        cases h
        exact .leaveClause hpath
  | becomePredicate =>
    obtain ⟨id, outer, c, c', hpath, hclause, hchange, rfl⟩ := editClause_eq_ok h
    cases hchange
    exact .change hpath hclause .predicate
  | becomeGroup connective =>
    obtain ⟨id, outer, c, c', hpath, hclause, hchange, rfl⟩ := editClause_eq_ok h
    cases hchange
    exact .change hpath hclause (.group connective)
  | nameComparison word => exact step_of_editPredicate h
  | useRowKey => exact step_of_editPredicate h
  | addKey key => exact step_of_editPredicate h
  | addLiteral text => exact step_of_editPredicate h

/-- What holds of an empty draft and is kept by every step holds of every draft that is built. -/
theorem Built.induction {P : Draft → Prop} (hempty : P {})
    (hstep : ∀ {d e : Draft}, d.Step e → P d → P e) {d : Draft} (h : d.Built) : P d := by
  induction h with
  | empty => exact hempty
  | apply h applied ih => exact hstep (step_of_apply applied) ih
  | withCommand h command ih => exact hstep (.heading command _ _ _) ih
  | addRow h row ih => exact hstep (.heading _ _ _ _) ih

theorem Built.applyAll {d e : Draft} (hd : d.Built) {edits : List Edit}
    (h : d.applyAll edits = .ok e) : e.Built := by
  induction edits generalizing d with
  | nil =>
    cases h
    exact hd
  | cons edit edits ih =>
    simp only [Draft.applyAll, List.foldlM_cons] at h
    cases hedit : d.apply edit with
    | error fault =>
      rw [hedit] at h
      cases h
    | ok d' =>
      rw [hedit] at h
      exact ih (.apply hd hedit) h

def childrenOf (d : Draft) (id : Nat) : List Nat :=
  (d.clauses[id]?.map ClauseDraft.children).getD []

theorem childrenOf_of_clause {d : Draft} {id : Nat} {c : ClauseDraft}
    (h : d.clauses[id]? = some c) : d.childrenOf id = c.children := by
  rw [childrenOf, h, Option.map_some, Option.getD_some]

theorem childrenOf_of_size_le {d : Draft} {id : Nat} (h : d.clauses.size ≤ id) :
    d.childrenOf id = [] := by
  rw [childrenOf, Array.getElem?_eq_none h, Option.map_none, Option.getD_none]

/-- Indices of clauses grow from the outside to the inside and from first to last, and no clause is
in two others. -/
structure Arranged (d : Draft) : Prop where
  inside : ∀ id, ∀ child ∈ d.childrenOf id, id < child ∧ child < d.clauses.size
  increasing : ∀ id, (d.childrenOf id).Pairwise (· < ·)
  parent_unique : ∀ i j child, child ∈ d.childrenOf i → child ∈ d.childrenOf j → i = j

structure Sound (d : Draft) : Prop extends d.Arranged where
  root_none : d.root = none ↔ d.path = []
  path_root : d.path.getLast? = d.root
  root_free : ∀ root, d.root = some root → root < d.clauses.size ∧ ∀ id, root ∉ d.childrenOf id
  path_last : d.path.IsChain fun inner outer => (d.childrenOf outer).getLast? = some inner

theorem Arranged.of_childrenOf {d e : Draft} (h : d.Arranged)
    (hsize : d.clauses.size ≤ e.clauses.size)
    (hchildren : ∀ id, e.childrenOf id = d.childrenOf id) : e.Arranged where
  inside id child hchild := by
    rw [hchildren] at hchild
    have hinside := h.inside id child hchild
    omega
  increasing id := by
    rw [hchildren]
    exact h.increasing id
  parent_unique i j child hi hj := by
    rw [hchildren] at hi hj
    exact h.parent_unique i j child hi hj

theorem Sound.of_childrenOf {d e : Draft} (h : d.Sound) (hroot : e.root = d.root)
    (hpath : e.path = d.path) (hsize : e.clauses.size = d.clauses.size)
    (hchildren : ∀ id, e.childrenOf id = d.childrenOf id) : e.Sound where
  toArranged := h.toArranged.of_childrenOf hsize.ge hchildren
  root_none := by rw [hroot, hpath, h.root_none]
  path_root := by rw [hroot, hpath, h.path_root]
  root_free root hr := by
    rw [hroot] at hr
    simpa only [hchildren, hsize] using h.root_free root hr
  path_last := by simpa only [hchildren, hpath] using h.path_last

theorem lt_size_of_clause {d : Draft} {id : Nat} {c : ClauseDraft}
    (h : d.clauses[id]? = some c) : id < d.clauses.size :=
  (Array.getElem?_eq_some_iff.1 h).1

theorem childrenOf_opened (d : Draft) (id : Nat) : d.opened.childrenOf id = d.childrenOf id := by
  by_cases hnew : id = d.clauses.size
  · rw [childrenOf_of_size_le hnew.ge, hnew]
    simp [childrenOf, opened]
  · simp [childrenOf, opened, Array.getElem?_push, hnew]

theorem Sound.opened {d : Draft} (h : d.Sound) : d.opened.Sound := by
  refine ⟨h.toArranged.of_childrenOf (by simp [Draft.opened]) d.childrenOf_opened,
    by simp [Draft.opened], rfl, ?_, .singleton _⟩
  rintro root ⟨⟩
  refine ⟨by simp [Draft.opened], fun id hmem => ?_⟩
  rw [childrenOf_opened] at hmem
  have hinside := h.inside id _ hmem
  omega

/-- Further in on the path the indices are greater. -/
theorem Sound.path_decreasing {d : Draft} (h : d.Sound) : d.path.Pairwise (· > ·) := by
  refine List.isChain_iff_pairwise.1 (h.path_last.imp fun inner outer hlast => ?_)
  exact (h.inside outer inner (List.mem_of_getLast? hlast)).1

section Enter
variable {d : Draft} {id : Nat} {outer : List Nat} {c : ClauseDraft}

theorem size_entered : (d.entered id c).clauses.size = d.clauses.size + 1 := by simp [entered]

theorem getElem?_entered (h : d.clauses[id]? = some c) (j : Nat) :
    (d.entered id c).clauses[j]? =
      if j = d.clauses.size then some {}
      else if j = id then some { c with children := c.children ++ [d.clauses.size] }
      else d.clauses[j]? := by
  have hid := lt_size_of_clause h
  simp only [entered, Array.getElem?_push, Array.size_setIfInBounds, Array.getElem?_setIfInBounds,
    hid, if_true, eq_comm (a := id)]

theorem childrenOf_entered (h : d.clauses[id]? = some c) (j : Nat) :
    (d.entered id c).childrenOf j =
      if j = id then d.childrenOf id ++ [d.clauses.size] else d.childrenOf j := by
  have hid := lt_size_of_clause h
  rw [childrenOf, getElem?_entered h]
  by_cases hnew : j = d.clauses.size
  · rw [if_pos hnew, if_neg (by omega), childrenOf_of_size_le hnew.ge]
    rfl
  · rw [if_neg hnew]
    by_cases hj : j = id
    · rw [if_pos hj, if_pos hj, childrenOf_of_clause h]
      rfl
    · rw [if_neg hj, if_neg hj]
      rfl

/-- The clauses in a clause are those that were in it, and the new one. -/
theorem mem_childrenOf_entered (h : d.clauses[id]? = some c) {j child : Nat} :
    child ∈ (d.entered id c).childrenOf j ↔
      child ∈ d.childrenOf j ∨ j = id ∧ child = d.clauses.size := by
  rw [childrenOf_entered h]
  by_cases hj : j = id
  · subst hj
    simp
  · simp [hj]

theorem Arranged.entered (h : d.Arranged) (hclause : d.clauses[id]? = some c) :
    (d.entered id c).Arranged := by
  have hid := lt_size_of_clause hclause
  refine ⟨fun j child hmem => ?_, fun j => ?_, fun i j child hi hj => ?_⟩
  · rw [size_entered]
    obtain hmem | ⟨rfl, rfl⟩ := (mem_childrenOf_entered hclause).1 hmem
    · have hinside := h.inside j child hmem
      omega
    · omega
  · rw [childrenOf_entered hclause]
    split
    · refine List.pairwise_append.2 ⟨h.increasing id, List.pairwise_singleton _ _, ?_⟩
      intro child hchild new hnew
      rw [List.mem_singleton.1 hnew]
      exact (h.inside id child hchild).2
    · exact h.increasing j
  · rw [mem_childrenOf_entered hclause] at hi hj
    -- The new clause is in no old clause, since its index was not there before.
    have hnew (k : Nat) : d.clauses.size ∉ d.childrenOf k := fun hmem =>
      absurd (h.inside k _ hmem).2 (Nat.lt_irrefl _)
    obtain hi | ⟨rfl, rfl⟩ := hi
    · obtain hj | ⟨rfl, rfl⟩ := hj
      · exact h.parent_unique i j child hi hj
      · exact absurd hi (hnew i)
    · obtain hj | ⟨rfl, -⟩ := hj
      · exact absurd hj (hnew j)
      · rfl

theorem Sound.entered (h : d.Sound) (hpath : d.path = id :: outer)
    (hclause : d.clauses[id]? = some c) : (d.entered id c).Sound where
  toArranged := h.toArranged.entered hclause
  root_none := by
    have hroot : d.root ≠ none := fun hroot => by simp [h.root_none.1 hroot] at hpath
    simp [Draft.entered, hroot]
  path_root := by
    have hroot := h.path_root
    rw [hpath] at hroot
    simpa [Draft.entered, hpath] using hroot
  root_free root hr := by
    obtain ⟨hlt, hfree⟩ := h.root_free root hr
    refine ⟨by rw [size_entered]; omega, fun j hmem => ?_⟩
    obtain hmem | ⟨-, hnew⟩ := (mem_childrenOf_entered hclause).1 hmem
    · exact hfree j hmem
    · omega
  path_last := by
    have hlast := h.path_last
    have hdecreasing := h.path_decreasing
    rw [hpath] at hlast hdecreasing
    have hfirst : ((d.entered id c).childrenOf id).getLast? = some d.clauses.size := by
      simp [childrenOf_entered hclause]
    show List.IsChain _ (d.clauses.size :: d.path)
    rw [hpath]
    refine List.isChain_cons_cons.2 ⟨hfirst, ?_⟩
    -- Only `id` gets a new last clause, and further out the path does not come to `id` again.
    refine hlast.imp_of_mem_tail_imp fun inner next _ hnext hchild => ?_
    have hne : next ≠ id := (List.rel_of_pairwise_cons hdecreasing hnext).ne
    rw [childrenOf_entered hclause, if_neg hne]
    exact hchild

end Enter

theorem getElem?_replaced {d : Draft} {id : Nat} {c : ClauseDraft}
    (h : d.clauses[id]? = some c) (c' : ClauseDraft) (j : Nat) :
    (d.replaced id c').clauses[j]? = if j = id then some c' else d.clauses[j]? := by
  have hid := lt_size_of_clause h
  simp only [replaced, Array.getElem?_setIfInBounds, hid, if_true, eq_comm (a := id)]

theorem childrenOf_replaced {d : Draft} {id : Nat} {c c' : ClauseDraft}
    (hclause : d.clauses[id]? = some c) (hchildren : c'.children = c.children) (j : Nat) :
    (d.replaced id c').childrenOf j = d.childrenOf j := by
  rw [childrenOf, getElem?_replaced hclause]
  by_cases hj : j = id
  · rw [if_pos hj, hj, childrenOf_of_clause hclause, ← hchildren]
    rfl
  · rw [if_neg hj]
    rfl

theorem Sound.step {d e : Draft} (h : d.Sound) (hstep : d.Step e) : e.Sound := by
  cases hstep with
  | heading command tableKey limit rows => exact h.of_childrenOf rfl rfl rfl fun _ => rfl
  | openRoot => exact h.opened
  | enterClause hpath hclause => exact h.entered hpath hclause
  | leaveClause hpath =>
    have hroot := h.path_root
    have hlast := h.path_last
    have hnone := h.root_none
    rw [hpath] at hroot hlast hnone
    exact ⟨⟨h.inside, h.increasing, h.parent_unique⟩, by simpa using hnone,
      by simpa using hroot, h.root_free, (List.isChain_cons_cons.1 hlast).2⟩
  | change hpath hclause hchanged =>
    exact h.of_childrenOf rfl rfl (by simp [replaced])
      (childrenOf_replaced hclause hchanged.children_eq)

theorem sound_empty : ({} : Draft).Sound := by
  have hchildren (id : Nat) : ({} : Draft).childrenOf id = [] := by simp [childrenOf]
  refine ⟨⟨?_, ?_, ?_⟩, by simp, rfl, by simp, .nil⟩ <;> simp [hchildren]

/-- Over all lists of clauses in a clause, every index occurs at most once. -/
theorem Arranged.nodup_children {d : Draft} (h : d.Arranged) :
    (d.clauses.toList.flatMap ClauseDraft.children).Nodup := by
  have hclause (i : Nat) (hi : i < d.clauses.toList.length) :
      d.clauses.toList[i].children = d.childrenOf i := by
    rw [childrenOf_of_clause (c := d.clauses.toList[i])]
    rw [← Array.getElem?_toList, List.getElem?_eq_getElem hi]
  refine List.nodup_flatMap.2 ⟨fun c hc => ?_, List.pairwise_iff_getElem.2 fun i j hi hj hij => ?_⟩
  · obtain ⟨i, hi, rfl⟩ := List.mem_iff_getElem.1 hc
    rw [hclause i hi]
    exact (h.increasing i).imp fun hlt => hlt.ne
  · intro child hchildi hchildj
    rw [hclause i hi] at hchildi
    rw [hclause j hj] at hchildj
    have hsame := h.parent_unique i j child hchildi hchildj
    omega

theorem Built.sound {d : Draft} (h : d.Built) : d.Sound :=
  h.induction sound_empty fun hstep hd => hd.step hstep

end Draft
end TableLang
