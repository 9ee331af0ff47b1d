import TableLang.Proofs.Draft.ClauseTree
import TableLang.Query.Compile

/-! Compiling a draft by going from index to index in the array of clauses. Where the clauses are
arranged, such a walk never leaves the array, comes to an end, and comes to no clause twice. It does
what compiling does. Main statement: all this holds of every draft that edits can make of an empty
one. -/
namespace TableLang

structure Walk (α : Type) where
  visited : List Nat
  outcome : Except CompileError α

namespace Draft

namespace Arranged
variable {d : Draft}

mutual
def walkClause (h : d.Arranged) (id : Nat) (hid : id < d.clauses.size) : Walk Condition :=
  match ClauseKind.ofName? d.clauses[id].command, d.clauses[id].predicate with
  | some (.group connective), _ =>
    have hrow : ∀ child ∈ d.clauses[id].children, id < child ∧ child < d.clauses.size :=
      fun child hchild => h.inside id child
        (childrenOf_of_clause (Array.getElem?_eq_getElem hid) ▸ hchild)
    let row := walkRow h id 0 d.clauses[id].children hrow
    ⟨id :: row.visited, (row.outcome.map (.group connective)).mapError (.inGroup connective)⟩
  | some .predicate, some p => ⟨[id], (p.compile.map .predicate).mapError .inPredicate⟩
  | _, _ => ⟨[id], .error (.unsupportedClause d.clauses[id].command)⟩
termination_by (d.clauses.size - id, 1, 0)

/-- Compiles a row of clauses in the clause `parent` up to the first that cannot be compiled; the
first clause of the row has the index `index` in its group. -/
def walkRow (h : d.Arranged) (parent index : Nat) (ids : List Nat)
    (hids : ∀ id ∈ ids, parent < id ∧ id < d.clauses.size) : Walk (List Condition) :=
  match ids with
  | [] => ⟨[], .ok []⟩
  | id :: ids =>
    have hid := hids id List.mem_cons_self
    let first := walkClause h id hid.2
    match first.outcome with
    | .error e => ⟨first.visited, .error (.inChild index e)⟩
    | .ok part =>
      let later := walkRow h parent (index + 1) ids fun i hi => hids i (List.mem_cons_of_mem id hi)
      ⟨first.visited ++ later.visited, later.outcome.map (part :: ·)⟩
termination_by (d.clauses.size - parent, 0, ids.length)
end

mutual
/-- A walk comes to what compiling the tree comes to, and on its way to clauses of the tree only, in
their order and each at most once. -/
theorem walkClause_of_holds (h : d.Arranged) : (t : Tree (Nat × ClauseDraft)) → d.Holds t →
    ∀ hid, (h.walkClause t.index hid).outcome = Condition.ofTree t ∧
      (h.walkClause t.index hid).visited.Sublist t.ids
  | .node (id, c) ts, ⟨hclause, hchildren, hts⟩, hid => by
    obtain ⟨hid', rfl⟩ := Array.getElem?_eq_some_iff.1 hclause
    change (h.walkClause id hid').outcome = _ ∧ (h.walkClause id hid').visited.Sublist _
    unfold walkClause Condition.ofTree
    rw [Tree.ids_node]
    cases hkind : ClauseKind.ofName? d.clauses[id].command with
    | none => exact ⟨rfl, List.singleton_sublist.2 List.mem_cons_self⟩
    | some kind =>
      cases kind with
      | group connective =>
        simp only [hchildren]
        obtain ⟨houtcome, hvisited⟩ := walkRow_of_holdsAll h id ts hts 0 _
        rw [houtcome]
        refine ⟨?_, hvisited.cons_cons id⟩
        cases Condition.ofForest 0 ts <;> rfl
      | predicate =>
        cases hpredicate : d.clauses[id].predicate with
        | none => exact ⟨rfl, List.singleton_sublist.2 List.mem_cons_self⟩
        | some p =>
          refine ⟨?_, List.singleton_sublist.2 List.mem_cons_self⟩
          dsimp only
          cases p.compile <;> rfl

theorem walkRow_of_holdsAll (h : d.Arranged) (parent : Nat) :
    (ts : List (Tree (Nat × ClauseDraft))) → d.HoldsAll ts → ∀ index hids,
    (h.walkRow parent index (ts.map Tree.index) hids).outcome = Condition.ofForest index ts ∧
      (h.walkRow parent index (ts.map Tree.index) hids).visited.Sublist (Tree.idsAll ts)
  | [], _, index, hids => by
    simp [walkRow, Condition.ofForest]
  | t :: ts, ⟨ht, hts⟩, index, hids => by
    have hlater : ∀ id ∈ ts.map Tree.index, parent < id ∧ id < d.clauses.size :=
      fun id hid => hids id (List.mem_cons_of_mem _ hid)
    obtain ⟨hfirst, hvisited⟩ := walkClause_of_holds h t ht (hids t.index List.mem_cons_self).2
    obtain ⟨hrest, hvisited'⟩ := walkRow_of_holdsAll h parent ts hts (index + 1) hlater
    simp only [List.map_cons]
    rw [walkRow, Condition.ofForest, Tree.idsAll_cons]
    simp only [hfirst]
    cases Condition.ofTree t with
    | error e => exact ⟨rfl, hvisited.trans (List.sublist_append_left _ _)⟩
    | ok part =>
      dsimp only
      rw [hrest]
      refine ⟨?_, hvisited.append hvisited'⟩
      cases Condition.ofForest (index + 1) ts <;> rfl
end

end Arranged

/-- The clause where compiling begins: the only clause of the root if there is just one, else the
root itself. -/
def start (d : Draft) (root : Nat) : Nat :=
  match d.childrenOf root with
  | [only] => only
  | _ => root

end Draft

def Tree.start (t : Tree (Nat × ClauseDraft)) : Tree (Nat × ClauseDraft) :=
  match t.children with
  | [only] => only
  | _ => t

theorem Condition.ofRoot_eq (t : Tree (Nat × ClauseDraft)) :
    Condition.ofRoot t = Condition.ofTree t.start := by
  unfold Condition.ofRoot Tree.start
  cases t.children with
  | nil => rfl
  | cons u us => cases us <;> rfl

theorem Draft.Holds.start {d : Draft} {t : Tree (Nat × ClauseDraft)} (h : d.Holds t) :
    d.Holds t.start ∧ d.start t.index = t.start.index ∧ t.start.ids.Sublist t.ids := by
  obtain ⟨⟨id, c⟩, ts⟩ := t
  have ⟨hclause, hchildren, hts⟩ := h
  have hindex : (Tree.node (id, c) ts).index = id := rfl
  unfold Draft.start
  rw [hindex, childrenOf_of_clause hclause, hchildren]
  match ts with
  | [] => exact ⟨h, rfl, List.Sublist.refl _⟩
  | [only] => exact ⟨hts.1, rfl, by simp [Tree.start, Tree.children]⟩
  | _ :: _ :: _ => exact ⟨h, rfl, List.Sublist.refl _⟩

namespace Draft

theorem Sound.start_lt {d : Draft} (h : d.Sound) {root : Nat} (hroot : d.root = some root) :
    d.start root < d.clauses.size := by
  obtain ⟨t, ht, rfl, -⟩ := h.exists_clauseTree? hroot
  obtain ⟨hstart, hindex, -⟩ := ht.start
  rw [hindex]
  exact hstart.index_lt

def Sound.walk {d : Draft} (h : d.Sound) {root : Nat} (hroot : d.root = some root) :
    Walk Condition :=
  h.walkClause (d.start root) (h.start_lt hroot)

theorem Sound.walk_eq {d : Draft} (h : d.Sound) {root : Nat} (hroot : d.root = some root) :
    d.compileCondition = ((h.walk hroot).outcome.map some).mapError .inWhere ∧
      (h.walk hroot).visited.Nodup ∧ ∀ id ∈ (h.walk hroot).visited, id < d.clauses.size := by
  obtain ⟨t, ht, rfl, htree⟩ := h.exists_clauseTree? hroot
  obtain ⟨hstart, hindex, hids⟩ := ht.start
  have hwalk := h.walkClause_of_holds t.start hstart hstart.index_lt
  simp only [← hindex] at hwalk
  obtain ⟨houtcome, hvisited⟩ := hwalk
  have hsublist := hvisited.trans hids
  refine ⟨?_, hsublist.nodup (h.nodup_ids t ht),
    fun id hid => h.lt_size_of_mem_ids ht (hsublist.subset hid)⟩
  rw [Sound.walk, houtcome]
  simp only [compileCondition, hroot, htree, Condition.ofRoot_eq]
  cases Condition.ofTree t.start <;> rfl

end Draft

mutual
theorem Condition.missingClause_notMem_ofTree (id : Nat) : (t : Tree (Nat × ClauseDraft)) →
    ∀ e, Condition.ofTree t = .error e → CompileError.missingClause id ∉ e.chain
  | .node (_, c) ts, e, he => by
    unfold Condition.ofTree at he
    split at he
    · split at he
      · cases he
      · rename_i cause hcause
        cases he
        have hts := Condition.missingClause_notMem_ofForest id ts 0 cause hcause
        simp [CompileError.chain, hts]
    · rename_i p _ _
      cases hname : Comparison.ofName? p.command with
      | none =>
        simp only [PredicateDraft.compile, hname] at he
        cases he
        simp [CompileError.chain]
      | some comparison =>
        simp only [PredicateDraft.compile, hname] at he
        cases he
    · cases he
      simp [CompileError.chain]

theorem Condition.missingClause_notMem_ofForest (id : Nat) :
    (ts : List (Tree (Nat × ClauseDraft))) → ∀ index e, Condition.ofForest index ts = .error e →
    CompileError.missingClause id ∉ e.chain
  | [], index, e, he => by
    cases he
  | t :: ts, index, e, he => by
    unfold Condition.ofForest at he
    split at he
    · rename_i cause hcause
      cases he
      have ht := Condition.missingClause_notMem_ofTree id t cause hcause
      simp [CompileError.chain, ht]
    · split at he
      · cases he
      · rename_i cause hcause
        cases he
        exact Condition.missingClause_notMem_ofForest id ts (index + 1) e hcause
end

namespace Draft

theorem compileSelection_eq_error {d : Draft} {e : CompileError}
    (h : d.compileSelection = .error e) :
    d.compileLimit = .error e ∨ d.compileCondition = .error e := by
  unfold compileSelection at h
  cases hlimit : d.compileLimit with
  | error cause =>
    rw [hlimit] at h
    cases h
    exact .inl rfl
  | ok limit =>
    cases hcondition : d.compileCondition with
    | error cause =>
      rw [hlimit, hcondition] at h
      cases h
      exact .inr rfl
    | ok condition =>
      rw [hlimit, hcondition] at h
      cases h

theorem compileLimit_eq_error {d : Draft} {e : CompileError} (h : d.compileLimit = .error e) :
    ∃ cause, e = .badLimit d.limit cause := by
  unfold compileLimit at h
  split at h
  · cases h
  · split at h
    · cases h
    · rename_i cause hcause
      cases h
      exact ⟨cause, rfl⟩

/-- Compiling a sound draft never meets an index without a clause. -/
theorem Sound.missingClause_notMem_compile {d : Draft} (h : d.Sound) (id : Nat) {e : CompileError}
    (he : d.compile = .error e) : CompileError.missingClause id ∉ e.chain := by
  unfold compile at he
  split at he
  · cases he
    simp [CompileError.chain]
  · cases he
  · split at he
    · cases he
    · rename_i cause hcause
      cases he
      obtain hlimit | hcondition := compileSelection_eq_error hcause
      · obtain ⟨why, rfl⟩ := compileLimit_eq_error hlimit
        simp [CompileError.chain]
      · cases hroot : d.root with
        | none =>
          simp only [compileCondition, hroot] at hcondition
          cases hcondition
        | some root =>
          obtain ⟨t, -, -, htree⟩ := h.exists_clauseTree? hroot
          simp only [compileCondition, hroot, htree, Condition.ofRoot_eq] at hcondition
          cases hof : Condition.ofTree t.start with
          | ok c =>
            rw [hof] at hcondition
            cases hcondition
          | error why =>
            rw [hof] at hcondition
            cases hcondition
            have hnot := Condition.missingClause_notMem_ofTree id t.start why hof
            simp [CompileError.chain, hnot]

end Draft

/-- Edits keep the array of clauses in order. Whatever edits an empty draft takes, in any order:
clauses stand before the clauses in them, lists of clauses are increasing, no index occurs in two
places, and the path leads from the root, which is in no clause, to the innermost clause by last
clauses only. So compiling may go from index to index: it never leaves the array, comes to an end
and comes to no clause twice. -/
theorem sound_of_applyAll (edits : List Edit) (d : Draft)
    (h : Draft.applyAll {} edits = .ok d) :
    ∃ sound : d.Sound,
      (d.clauses.toList.flatMap ClauseDraft.children).Nodup ∧
      (∀ root, ∀ hroot : d.root = some root,
        d.compileCondition = ((sound.walk hroot).outcome.map some).mapError .inWhere ∧
          (sound.walk hroot).visited.Nodup ∧
          ∀ id ∈ (sound.walk hroot).visited, id < d.clauses.size) ∧
      ∀ id e, d.compile = .error e → CompileError.missingClause id ∉ e.chain := by
  have sound := (Draft.Built.empty.applyAll h).sound
  exact ⟨sound, sound.nodup_children, fun root hroot => sound.walk_eq hroot,
    fun id e he => sound.missingClause_notMem_compile id he⟩

def Draft.restarted : Draft where
  root := some 2
  clauses := #[{ command := "and", children := [1] }, {}, { command := "and", children := [3, 4] },
    { command := "or" }, { command := "predicate", predicate := some {} }]
  path := [4, 2]

theorem sound_of_applyAll_restarted :
    Draft.applyAll {} [.openRoot, .enterClause, .openRoot, .enterClause, .becomeGroup .or,
        .leaveClause, .enterClause, .becomePredicate] = .ok Draft.restarted ∧
      ∃ sound : Draft.restarted.Sound, ∀ hroot : Draft.restarted.root = some 2,
        (sound.walk hroot).visited.Nodup := by
  have h : Draft.applyAll {} [.openRoot, .enterClause, .openRoot, .enterClause, .becomeGroup .or,
      .leaveClause, .enterClause, .becomePredicate] = .ok Draft.restarted := by decide
  obtain ⟨sound, -, hwalk, -⟩ := sound_of_applyAll _ _ h
  exact ⟨h, sound, fun hroot => (hwalk 2 hroot).2.1⟩

end TableLang
