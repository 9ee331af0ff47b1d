import TableLang.Proofs.Draft.ClauseTree
import TableLang.Proofs.Draft.Sketch

/-! A draft is a faithful rendering of a sketch. The tree that is read off the array of clauses is
the tree of the sketch, and the path of the draft leads to its focus. Both take the same edits, and
they are stuck at the same edit for the same reason. The heart of it is that an edit writes at one
index only, and that no index occurs twice in the tree: so it changes the tree at the focus only. -/
namespace TableLang

def ClauseDraft.head (c : ClauseDraft) : ClauseHead := ⟨c.command, c.predicate⟩

namespace Tree

def heads (t : Tree (Nat × ClauseDraft)) : Tree ClauseHead := t.map fun l => l.2.head

inductive Leads : Tree (Nat × ClauseDraft) → List Nat → List Nat → Prop where
  | here (t : Tree (Nat × ClauseDraft)) : Leads t [] [t.index]
  | child {id : Nat} {c : ClauseDraft} {before after : List (Tree (Nat × ClauseDraft))}
    {t : Tree (Nat × ClauseDraft)} {address path : List Nat} (h : Leads t address path) :
    Leads (.node (id, c) (before ++ t :: after)) (before.length :: address) (path ++ [id])

section Replace
variable {α β : Type}

theorem at?_child (a : α) (before after : List (Tree α)) (t : Tree α) (address : List Nat) :
    (node a (before ++ t :: after)).at? (before.length :: address) = t.at? address := by
  simp [at?]

theorem replaceAt_child (a : α) (before after : List (Tree α)) (t u : Tree α)
    (address : List Nat) :
    (node a (before ++ t :: after)).replaceAt (before.length :: address) u =
      node a (before ++ t.replaceAt address u :: after) := by
  rw [replaceAt]
  congr 1
  induction before with
  | nil => rfl
  | cons b before ih => simpa using ih

theorem mapAll_eq (f : α → β) (ts : List (Tree α)) : mapAll f ts = ts.map (map f) := by
  induction ts with
  | nil => rfl
  | cons t ts ih => rw [mapAll, ih, List.map_cons]

theorem map_node (f : α → β) (a : α) (ts : List (Tree α)) :
    (node a ts).map f = node (f a) (ts.map (map f)) := by
  rw [map, mapAll_eq]

theorem at?_map (f : α → β) (t : Tree α) (address : List Nat) :
    (t.map f).at? address = (t.at? address).map (map f) := by
  induction address generalizing t with
  | nil => rfl
  | cons i address ih =>
    obtain ⟨a, ts⟩ := t
    rw [map_node, at?, at?, List.getElem?_map]
    cases ts[i]? with
    | none => rfl
    | some t => exact ih t

theorem map_replaceAt (f : α → β) (t u : Tree α) (address : List Nat) :
    (t.replaceAt address u).map f = (t.map f).replaceAt address (u.map f) := by
  induction address generalizing t with
  | nil => rfl
  | cons i address ih =>
    obtain ⟨a, ts⟩ := t
    rw [replaceAt, map_node, map_node, replaceAt]
    congr 1
    refine List.ext_getElem? fun j => ?_
    simp only [List.getElem?_map, List.getElem?_modify]
    cases ts[j]? with
    | none => rfl
    | some t =>
      by_cases hj : i = j
      · simp [hj, ih]
      · simp [hj]

end Replace

theorem index_mem_ids (t : Tree (Nat × ClauseDraft)) : t.index ∈ t.ids := by
  obtain ⟨⟨id, c⟩, ts⟩ := t
  rw [ids_node]
  exact List.mem_cons_self

namespace Leads
variable {t u sub : Tree (Nat × ClauseDraft)} {address path : List Nat}

theorem length_eq (h : Leads t address path) : path.length = address.length + 1 := by
  induction h with
  | here t => rfl
  | child h ih => rw [List.length_append, ih, List.length_singleton, List.length_cons]

theorem exists_at? (h : Leads t address path) :
    ∃ sub outer, t.at? address = some sub ∧ path = sub.index :: outer := by
  induction h with
  | here t => exact ⟨t, [], rfl, rfl⟩
  | @child id c before after t address path h ih =>
    obtain ⟨sub, outer, hsub, hpath⟩ := ih
    exact ⟨sub, outer ++ [id], by rw [at?_child, hsub], by rw [hpath, List.cons_append]⟩

theorem holds_at? {d : Draft} (h : Leads t address path) (hsub : t.at? address = some sub)
    (ht : d.Holds t) : d.Holds sub := by
  induction h with
  | here t =>
    cases hsub
    exact ht
  | @child id c before after t address path h ih =>
    rw [at?_child] at hsub
    exact ih hsub (Draft.holdsAll_append.1 ht.2.2).2.1

theorem ids_sublist (h : Leads t address path) (hsub : t.at? address = some sub) :
    sub.ids.Sublist t.ids := by
  induction h with
  | here t =>
    cases hsub
    exact List.Sublist.refl _
  | @child id c before after t address path h ih =>
    rw [at?_child] at hsub
    rw [ids_node, idsAll_append, idsAll_cons]
    exact ((ih hsub).trans ((List.sublist_append_left _ _).trans
      (List.sublist_append_right _ _))).cons id

/-- The path to a clause that is the one before `after` in the clause at the address. -/
theorem enter (h : Leads t address path) {l : Nat × ClauseDraft}
    {before after : List (Tree (Nat × ClauseDraft))}
    (hsub : t.at? address = some (.node l (before ++ u :: after))) :
    Leads t (address ++ [before.length]) (u.index :: path) := by
  induction h with
  | here t =>
    cases hsub
    exact .child (.here u)
  | child h ih =>
    rw [at?_child] at hsub
    exact .child (ih hsub)

theorem leave (h : Leads t address path) (hne : address ≠ []) :
    Leads t address.dropLast path.tail := by
  induction h with
  | here t => exact absurd rfl hne
  | @child id c before after t address path h ih =>
    obtain ⟨sub, outer, -, hpath⟩ := h.exists_at?
    cases address with
    | nil =>
      have houter : outer = [] := by simpa [hpath] using h.length_eq
      rw [hpath, houter]
      exact .here _
    | cons i address =>
      have hinner := ih (List.cons_ne_nil i address)
      rw [hpath] at hinner ⊢
      exact .child hinner

/-- When the clause at the address is exchanged in the array and all others stay, it is exchanged in
the tree and all others stay. -/
theorem holds_replaceAt {d e : Draft} (h : Leads t address path)
    (hsub : t.at? address = some sub) (hindex : u.index = sub.index) (ht : d.Holds t)
    (hnodup : t.ids.Nodup) (hu : e.Holds u)
    (hsame : ∀ i ∈ t.ids, i ≠ sub.index → e.clauses[i]? = d.clauses[i]?) :
    e.Holds (t.replaceAt address u) ∧ (t.replaceAt address u).index = t.index ∧
      Leads (t.replaceAt address u) address path := by
  induction h with
  | here t =>
    cases hsub
    refine ⟨hu, hindex, ?_⟩
    rw [← hindex]
    exact .here u
  | @child id c before after t address path h ih =>
    rw [at?_child] at hsub
    obtain ⟨hclause, hchildren, hts⟩ := ht
    obtain ⟨hbefore, ht, hafter⟩ := Draft.holdsAll_append.1 hts
    have hmem : sub.index ∈ t.ids := (h.ids_sublist hsub).subset sub.index_mem_ids
    rw [ids_node, idsAll_append, idsAll_cons] at hnodup hsame
    -- The exchanged clause lies in `t`, so it is neither the clause at the root nor in a neighbour.
    obtain ⟨hid, hnodup⟩ := List.nodup_cons.1 hnodup
    obtain ⟨-, hnodup, hbeforeApart⟩ := List.nodup_append'.1 hnodup
    obtain ⟨hnodupt, -, hafterApart⟩ := List.nodup_append'.1 hnodup
    have hne : id ≠ sub.index := by
      rintro rfl
      exact hid (by simp [hmem])
    obtain ⟨hholds, hroot, hleads⟩ := ih hsub ht hnodupt fun i hi => hsame i (by simp [hi])
    rw [replaceAt_child]
    refine ⟨⟨?_, ?_, Draft.holdsAll_append.2 ⟨?_, hholds, ?_⟩⟩, rfl, .child hleads⟩
    · rw [hsame id List.mem_cons_self hne, hclause]
    · rw [hchildren]
      simp [hroot]
    · refine hbefore.congr fun i hi => hsame i (by simp [hi]) ?_
      rintro rfl
      exact hbeforeApart hi (by simp [hmem])
    · refine hafter.congr fun i hi => hsame i (by simp [hi]) ?_
      rintro rfl
      exact hafterApart hmem hi

end Leads
end Tree

namespace Draft

/-- The clauses of a draft are those of a tree with a focus, read off as the tree `t`. -/
structure Pictured (d : Draft) (f : Focused ClauseHead) (t : Tree (Nat × ClauseDraft)) : Prop where
  root : d.root = some t.index
  holds : d.Holds t
  tree : t.heads = f.tree
  leads : t.Leads f.focus d.path

structure Agrees (d : Draft) (s : Sketch) : Prop where
  command : d.command = s.command
  tableKey : d.tableKey = s.tableKey
  limit : d.limit = s.limit
  clauses_none : s.clauses = none → d.root = none
  clauses_some : ∀ f, s.clauses = some f → ∃ t, d.Pictured f t

inductive Simulates : Except Fault Draft → Except Fault Sketch → Prop where
  | ok {d : Draft} {s : Sketch} (h : d.Agrees s) : Simulates (.ok d) (.ok s)
  | error (fault : Fault) : Simulates (.error fault) (.error fault)

theorem editClause_eq {d : Draft} {id : Nat} {outer : List Nat} {c : ClauseDraft}
    (hpath : d.path = id :: outer) (hclause : d.clauses[id]? = some c)
    (change : ClauseDraft → Except Fault ClauseDraft) :
    d.editClause change = (change c).map (d.replaced id) := by
  simp only [editClause, hpath, hclause]
  cases change c with
  | error fault => rfl
  | ok c' =>
    simp only [Except.map, replaced, hpath]
    rfl

section Simulation
variable {d : Draft} {s : Sketch} {f : Focused ClauseHead} {t : Tree (Nat × ClauseDraft)}

/-- Drafts with the same clauses are pictured alike. -/
theorem Pictured.congr {e : Draft} (h : d.Pictured f t) (hroot : e.root = d.root)
    (hclauses : e.clauses = d.clauses) (hpath : e.path = d.path) : e.Pictured f t where
  root := hroot.trans h.root
  holds := h.holds.congr fun i _ => by rw [hclauses]
  tree := h.tree
  leads := hpath ▸ h.leads

theorem Pictured.here_eq (h : d.Pictured f t) {id : Nat} {c : ClauseDraft}
    {ts : List (Tree (Nat × ClauseDraft))} (hsub : t.at? f.focus = some (.node (id, c) ts)) :
    f.here = .node c.head (ts.map Tree.heads) := by
  have hhere : f.tree.at? f.focus = some (.node c.head (ts.map Tree.heads)) := by
    rw [← h.tree, Tree.heads, Tree.at?_map, hsub, Option.map_some, Tree.map_node]
    rfl
  simp only [Focused.here, hhere, Option.get_some]

/-- The innermost clause is the one in focus. -/
theorem Pictured.exists_innermost (h : d.Pictured f t) :
    ∃ id c ts outer, t.at? f.focus = some (.node (id, c) ts) ∧ d.path = id :: outer ∧
      d.clauses[id]? = some c := by
  obtain ⟨⟨⟨id, c⟩, ts⟩, outer, hsub, hpath⟩ := h.leads.exists_at?
  exact ⟨id, c, ts, outer, hsub, hpath, (h.leads.holds_at? hsub h.holds).1⟩

/-- Exchanging the innermost clause changes the picture at the focus only. -/
theorem Pictured.replace (hd : d.Arranged) (h : d.Pictured f t) {e : Draft} {id : Nat}
    {c c' : ClauseDraft} {ts ts' : List (Tree (Nat × ClauseDraft))}
    (hsub : t.at? f.focus = some (.node (id, c) ts)) (hroot : e.root = d.root)
    (hclause : e.clauses[id]? = some c') (hchildren : c'.children = ts'.map Tree.index)
    (hts : e.HoldsAll ts')
    (hsame : ∀ i, i < d.clauses.size → i ≠ id → e.clauses[i]? = d.clauses[i]?) :
    ∃ t', e.root = some t'.index ∧ e.Holds t' ∧
      t'.heads = f.tree.replaceAt f.focus (.node c'.head (ts'.map Tree.heads)) ∧
      t'.at? f.focus = some (.node (id, c') ts') ∧ t'.Leads f.focus d.path := by
  have hu : e.Holds (.node (id, c') ts') := ⟨hclause, hchildren, hts⟩
  have hindex : (Tree.node (id, c') ts').index = (Tree.node (id, c) ts).index := rfl
  obtain ⟨hholds, hindex, hleads⟩ := h.leads.holds_replaceAt hsub hindex h.holds
    (hd.nodup_ids t h.holds) hu fun i hi => hsame i (hd.lt_size_of_mem_ids h.holds hi)
  refine ⟨_, ?_, hholds, ?_, Tree.at?_replaceAt (by rw [hsub]; rfl), hleads⟩
  · rw [hroot, h.root, hindex]
  · rw [Tree.heads, Tree.map_replaceAt, ← h.tree, Tree.map_node]
    rfl

/-- The innermost open clause is not among the clauses below it. -/
theorem Pictured.id_notMem (hd : d.Arranged) (h : d.Pictured f t) {id : Nat} {c : ClauseDraft}
    {ts : List (Tree (Nat × ClauseDraft))} (hsub : t.at? f.focus = some (.node (id, c) ts)) :
    id ∉ Tree.idsAll ts := by
  have hnodup := (h.leads.ids_sublist hsub).nodup (hd.nodup_ids t h.holds)
  rw [Tree.ids_node] at hnodup
  exact (List.nodup_cons.1 hnodup).1

theorem Pictured.relabel (hd : d.Arranged) (h : d.Pictured f t) {id : Nat} {c : ClauseDraft}
    {ts : List (Tree (Nat × ClauseDraft))} (hsub : t.at? f.focus = some (.node (id, c) ts))
    (c' : ClauseDraft) (hsame : c'.children = c.children) :
    ∃ t', (d.replaced id c').Pictured (f.relabel c'.head) t' := by
  obtain ⟨hclause, hchildren, hts⟩ := h.leads.holds_at? hsub h.holds
  have hget := getElem?_replaced hclause c'
  have hts' : (d.replaced id c').HoldsAll ts := hts.congr fun i hi => by
    rw [hget, if_neg]
    rintro rfl
    exact h.id_notMem hd hsub hi
  obtain ⟨t', hroot, hholds, htree, -, hleads⟩ := h.replace hd (e := d.replaced id c') hsub rfl
    (by rw [hget, if_pos rfl]) (hsame.trans hchildren) hts' fun i _ hi => by rw [hget, if_neg hi]
  refine ⟨t', hroot, hholds, ?_, hleads⟩
  rw [htree, Focused.relabel, h.here_eq hsub]
  rfl

theorem Pictured.enter (hd : d.Arranged) (h : d.Pictured f t) {id : Nat} {c : ClauseDraft}
    {ts : List (Tree (Nat × ClauseDraft))} (hsub : t.at? f.focus = some (.node (id, c) ts)) :
    ∃ t', (d.entered id c).Pictured (f.enter {}) t' := by
  obtain ⟨hclause, hchildren, hts⟩ := h.leads.holds_at? hsub h.holds
  have hget := getElem?_entered hclause
  have hid := lt_size_of_clause hclause
  have hold (i : Nat) (hlt : i < d.clauses.size) (hi : i ≠ id) :
      (d.entered id c).clauses[i]? = d.clauses[i]? := by
    rw [hget, if_neg hlt.ne, if_neg hi]
  have hts' : (d.entered id c).HoldsAll (ts ++ [.node (d.clauses.size, {}) []]) := by
    refine holdsAll_append.2 ⟨hts.congr fun i hi => hold i ?_ ?_, ⟨?_, rfl, trivial⟩, trivial⟩
    · refine hd.lt_size_of_mem_ids h.holds ((h.leads.ids_sublist hsub).subset ?_)
      rw [Tree.ids_node]
      exact List.mem_cons_of_mem id hi
    · rintro rfl
      exact h.id_notMem hd hsub hi
    · rw [hget, if_pos rfl]
  have hchildren' : c.children ++ [d.clauses.size] =
      (ts ++ [Tree.node (d.clauses.size, ({} : ClauseDraft)) []]).map Tree.index := by
    rw [hchildren, List.map_append]
    rfl
  obtain ⟨t', hroot, hholds, htree, hat, hleads⟩ := h.replace hd (e := d.entered id c) hsub rfl
    (by rw [hget, if_neg hid.ne, if_pos rfl]) hchildren' hts' hold
  refine ⟨t', hroot, hholds, ?_, ?_⟩
  · show t'.heads =
      f.tree.replaceAt f.focus (.node f.here.label (f.here.children ++ [.node {} []]))
    rw [htree, h.here_eq hsub, List.map_append]
    rfl
  · have hlength : f.here.children.length = ts.length := by
      rw [h.here_eq hsub]
      exact List.length_map _
    show t'.Leads (f.focus ++ [f.here.children.length]) (d.clauses.size :: d.path)
    rw [hlength]
    exact hleads.enter hat

theorem Pictured.leave (h : d.Pictured f t) (hne : f.focus ≠ []) {id next : Nat} {outer : List Nat}
    (hpath : d.path = id :: next :: outer) :
    { d with path := next :: outer }.Pictured f.leave t where
  root := h.root
  holds := h.holds.congr fun _ _ => rfl
  tree := h.tree
  leads := by
    have hleads := h.leads.leave hne
    rwa [hpath] at hleads

theorem pictured_opened (d : Draft) :
    d.opened.Pictured (.single { command := "and" })
      (.node (d.clauses.size, { command := Connective.and.name }) []) where
  root := rfl
  holds := ⟨by simp [opened], rfl, trivial⟩
  tree := rfl
  leads := .here _

theorem Agrees.path_eq_nil (hd : d.Sound) (h : d.Agrees s) (hnone : s.clauses = none) :
    d.path = [] :=
  hd.root_none.1 (h.clauses_none hnone)

/-- A sketch with other clauses is agreed with if its clauses are. -/
theorem Agrees.withClauses {e : Draft} (h : d.Agrees s) (hcommand : e.command = d.command)
    (htableKey : e.tableKey = d.tableKey) (hlimit : e.limit = d.limit) (ht : e.Pictured f t) :
    e.Agrees { s with clauses := some f } where
  command := hcommand.trans h.command
  tableKey := htableKey.trans h.tableKey
  limit := hlimit.trans h.limit
  clauses_none := nofun
  clauses_some g hg := by
    cases hg
    exact ⟨t, ht⟩

/-- A change of the innermost clause that leaves the clauses in it alone is a change of the clause
in focus. -/
theorem Agrees.editClause (hd : d.Sound) (h : d.Agrees s)
    {change : ClauseDraft → Except Fault ClauseDraft}
    {change' : ClauseHead → Except Fault ClauseHead}
    (hchange : ∀ c, change c = (change' c.head).map fun a =>
      { c with command := a.command, predicate := a.predicate }) :
    Simulates (d.editClause change) (s.editHere change') := by
  cases hf : s.clauses with
  | none =>
    simp only [Draft.editClause, h.path_eq_nil hd hf, Sketch.editHere, hf]
    exact .error _
  | some f =>
    obtain ⟨t, ht⟩ := h.clauses_some f hf
    obtain ⟨id, c, ts, outer, hsub, hpath, hclause⟩ := ht.exists_innermost
    have hlabel : f.here.label = c.head := by
      rw [ht.here_eq hsub]
      rfl
    rw [editClause_eq hpath hclause, hchange, Sketch.editHere, hf]
    simp only [hlabel]
    cases change' c.head with
    | error fault => exact .error fault
    | ok a =>
      obtain ⟨t', ht'⟩ := ht.relabel hd.toArranged hsub
        { c with command := a.command, predicate := a.predicate } rfl
      exact .ok (h.withClauses rfl rfl rfl ht')

theorem Agrees.editPredicate (hd : d.Sound) (h : d.Agrees s)
    (change : PredicateDraft → PredicateDraft) :
    Simulates (d.editPredicate change) (s.editPredicate change) := by
  refine h.editClause hd fun c => ?_
  obtain ⟨command, children, predicate⟩ := c
  cases predicate <;> rfl

theorem Agrees.enterClause (hd : d.Sound) (h : d.Agrees s) :
    Simulates (d.apply .enterClause) (s.apply .enterClause) := by
  cases hf : s.clauses with
  | none =>
    simp only [apply, Draft.editClause, h.path_eq_nil hd hf, Sketch.apply, hf]
    exact .error _
  | some f =>
    obtain ⟨t, ht⟩ := h.clauses_some f hf
    obtain ⟨id, c, ts, outer, hsub, hpath, hclause⟩ := ht.exists_innermost
    obtain ⟨t', ht'⟩ := ht.enter hd.toArranged hsub
    have happly : d.apply .enterClause = .ok (d.entered id c) := by
      rw [apply, editClause_eq hpath hclause]
      rfl
    simp only [happly, Sketch.apply, hf]
    exact .ok (h.withClauses rfl rfl rfl ht')

theorem Agrees.leaveClause (hd : d.Sound) (h : d.Agrees s) :
    Simulates (d.apply .leaveClause) (s.apply .leaveClause) := by
  cases hf : s.clauses with
  | none =>
    simp only [apply, h.path_eq_nil hd hf, Sketch.apply, hf]
    exact .error _
  | some f =>
    obtain ⟨t, ht⟩ := h.clauses_some f hf
    have hlength := ht.leads.length_eq
    simp only [Sketch.apply, hf]
    cases hpath : d.path with
    | nil =>
      rw [hpath] at hlength
      cases hlength
    | cons id outer =>
      cases outer with
      | nil =>
        have hroot : f.focus = [] := by simpa [hpath] using hlength
        simp only [apply, hpath, hroot, if_true]
        exact .error _
      | cons next outer =>
        have hne : f.focus ≠ [] := by
          intro hroot
          simp [hpath, hroot] at hlength
        simp only [apply, hpath, hne, if_false]
        exact .ok (h.withClauses rfl rfl rfl (ht.leave hne hpath))

/-- Every edit does the same to a draft and to its sketch. -/
theorem Agrees.apply (hd : d.Sound) (h : d.Agrees s) (edit : Edit) :
    Simulates (d.apply edit) (s.apply edit) := by
  have hsome {e : Draft} (hroot : e.root = d.root) (hclauses : e.clauses = d.clauses)
      (hpath : e.path = d.path) (f : Focused ClauseHead) (hf : s.clauses = some f) :
      ∃ t, e.Pictured f t := by
    obtain ⟨t, ht⟩ := h.clauses_some f hf
    exact ⟨t, ht.congr hroot hclauses hpath⟩
  cases edit with
  | chooseSelect => exact .ok ⟨rfl, h.tableKey, h.limit, h.clauses_none, hsome rfl rfl rfl⟩
  | nameTable key => exact .ok ⟨h.command, rfl, h.limit, h.clauses_none, hsome rfl rfl rfl⟩
  | setLimit text => exact .ok ⟨h.command, h.tableKey, rfl, h.clauses_none, hsome rfl rfl rfl⟩
  | openRoot => exact .ok (h.withClauses rfl rfl rfl d.pictured_opened)
  | enterClause => exact h.enterClause hd
  | leaveClause => exact h.leaveClause hd
  | becomePredicate =>
    simp only [Draft.apply, Sketch.apply]
    exact h.editClause hd fun c => rfl
  | becomeGroup connective =>
    simp only [Draft.apply, Sketch.apply]
    exact h.editClause hd fun c => rfl
  | nameComparison word => exact h.editPredicate hd _
  | useRowKey => exact h.editPredicate hd _
  | addKey key => exact h.editPredicate hd _
  | addLiteral text => exact h.editPredicate hd _

theorem Agrees.applyAll (hd : d.Sound) (h : d.Agrees s) (edits : List Edit) :
    Simulates (d.applyAll edits) (s.applyAll edits) := by
  induction edits generalizing d s with
  | nil => exact .ok h
  | cons edit edits ih =>
    simp only [Draft.applyAll, Sketch.applyAll, List.foldlM_cons]
    have hstep := h.apply hd edit
    generalize hdraft : d.apply edit = r at hstep ⊢
    generalize s.apply edit = r' at hstep ⊢
    cases hstep with
    | error fault => exact .error fault
    | ok h' => exact ih (hd.step (step_of_apply hdraft)) h'

end Simulation

theorem Simulates.error_iff {r : Except Fault Draft} {r' : Except Fault Sketch}
    (h : Simulates r r') (fault : Fault) : r = .error fault ↔ r' = .error fault := by
  cases h with
  | ok h => exact iff_of_false nofun nofun
  | error fault' => simp

theorem agrees_empty : ({} : Draft).Agrees {} := ⟨rfl, rfl, rfl, fun _ => rfl, nofun⟩

def headTree? (d : Draft) : Option (Tree ClauseHead) := (d.root.bind d.clauseTree?).map Tree.heads

structure Renders (d : Draft) (s : Sketch) : Prop where
  command : d.command = s.command
  tableKey : d.tableKey = s.tableKey
  limit : d.limit = s.limit
  tree : d.headTree? = s.clauses.map Focused.tree
  depth : d.path.length = (s.clauses.map fun f => f.focus.length + 1).getD 0

theorem Agrees.renders {d : Draft} {s : Sketch} (hd : d.Sound) (h : d.Agrees s) : d.Renders s := by
  cases hf : s.clauses with
  | none =>
    refine ⟨h.command, h.tableKey, h.limit, ?_, ?_⟩
    · rw [headTree?, h.clauses_none hf, hf]
      rfl
    · rw [h.path_eq_nil hd hf, hf]
      rfl
  | some f =>
    obtain ⟨t, ht⟩ := h.clauses_some f hf
    refine ⟨h.command, h.tableKey, h.limit, ?_, ?_⟩
    · rw [headTree?, ht.root, Option.bind_some, hd.clauseTree?_eq ht.holds, hf]
      simp [ht.tree]
    · rw [ht.leads.length_eq, hf]
      rfl

end Draft

/-- Building a draft in an array with a path of indices is building a tree with a focus. On every
sequence of edits both get stuck at the same edit for the same reason, or both go through; then the
tree under the root of the draft, its depth and its heading are those of the sketch, and what edit
cannot be taken next is said by the sketch. -/
theorem applyAll_refines_sketch (edits : List Edit) :
    (∀ fault, Draft.applyAll {} edits = .error fault ↔ Sketch.applyAll {} edits = .error fault) ∧
      ∀ d, Draft.applyAll {} edits = .ok d →
        ∃ s, Sketch.applyAll {} edits = .ok s ∧ d.Renders s ∧
          ∀ edit fault, d.apply edit = .error fault ↔ s.Stuck edit fault := by
  have hruns := Draft.agrees_empty.applyAll Draft.sound_empty edits
  refine ⟨hruns.error_iff, fun d hd => ?_⟩
  have hsound := (Draft.Built.empty.applyAll hd).sound
  rw [hd] at hruns
  generalize Sketch.applyAll {} edits = r at hruns ⊢
  cases hruns with
  | @ok _ s h =>
    refine ⟨s, rfl, h.renders hsound, fun edit fault => ?_⟩
    rw [(h.apply hsound edit).error_iff, Sketch.apply_eq_error_iff]

def Draft.regrouped : Draft where
  root := some 2
  clauses := #[{ command := "and", children := [1] }, {}, { command := "and", children := [3] },
    { command := "or" }]
  path := [3, 2]

theorem applyAll_refines_sketch_regrouped :
    Draft.applyAll {} [.openRoot, .enterClause, .openRoot, .enterClause, .becomeGroup .or] =
        .ok Draft.regrouped ∧
      Draft.regrouped.headTree? = some (.node ⟨"and", none⟩ [.node ⟨"or", none⟩ []]) ∧
      ∃ s, Draft.regrouped.Renders s ∧ s.Stuck (.addKey "a") (.noPredicate "or") := by
  have h : Draft.applyAll {} [.openRoot, .enterClause, .openRoot, .enterClause,
      .becomeGroup .or] = .ok Draft.regrouped := by decide
  obtain ⟨s, -, hrenders, hstuck⟩ := (applyAll_refines_sketch _).2 _ h
  exact ⟨h, rfl, s, hrenders, (hstuck _ _).1 (by decide)⟩

end TableLang
