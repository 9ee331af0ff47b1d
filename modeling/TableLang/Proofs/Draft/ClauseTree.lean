import TableLang.Proofs.Draft.Arena

/-! Trees of clauses that stand in the array of a draft. When the clauses are arranged, there is
exactly one tree below every clause, it is the one that is read off the array, and no index occurs
in it twice. -/
namespace TableLang

namespace Tree

def index (t : Tree (Nat × ClauseDraft)) : Nat := t.label.1

def ids (t : Tree (Nat × ClauseDraft)) : List Nat := t.preorder.map Prod.fst

def idsAll (ts : List (Tree (Nat × ClauseDraft))) : List Nat := (preorderForest ts).map Prod.fst

@[simp]
theorem ids_node (id : Nat) (c : ClauseDraft) (ts : List (Tree (Nat × ClauseDraft))) :
    (node (id, c) ts).ids = id :: idsAll ts := by
  simp [ids, idsAll, preorder]

@[simp]
theorem idsAll_nil : idsAll [] = [] := rfl

@[simp]
theorem idsAll_cons (t : Tree (Nat × ClauseDraft)) (ts : List (Tree (Nat × ClauseDraft))) :
    idsAll (t :: ts) = t.ids ++ idsAll ts := by
  simp [ids, idsAll, preorderForest]

@[simp]
theorem idsAll_append (ts us : List (Tree (Nat × ClauseDraft))) :
    idsAll (ts ++ us) = idsAll ts ++ idsAll us := by
  induction ts with
  | nil => rfl
  | cons t ts ih => simp [ih]

end Tree

namespace Draft

mutual
/-- Every clause of the tree stands in the array at its index, and the clauses below it are those
that it refers to. -/
def Holds (d : Draft) : Tree (Nat × ClauseDraft) → Prop
  | .node (id, c) ts => d.clauses[id]? = some c ∧ c.children = ts.map Tree.index ∧ d.HoldsAll ts

def HoldsAll (d : Draft) : List (Tree (Nat × ClauseDraft)) → Prop
  | [] => True
  | t :: ts => d.Holds t ∧ d.HoldsAll ts
end

theorem Holds.index_mem {d : Draft} {id : Nat} {c : ClauseDraft}
    {ts : List (Tree (Nat × ClauseDraft))} (h : d.Holds (.node (id, c) ts))
    {t : Tree (Nat × ClauseDraft)} (ht : t ∈ ts) : t.index ∈ d.childrenOf id := by
  obtain ⟨hclause, hchildren, -⟩ := h
  rw [childrenOf_of_clause hclause, hchildren]
  exact List.mem_map_of_mem ht

theorem Holds.index_lt {d : Draft} {t : Tree (Nat × ClauseDraft)} (h : d.Holds t) :
    t.index < d.clauses.size := by
  obtain ⟨⟨id, c⟩, ts⟩ := t
  exact lt_size_of_clause h.1

@[simp]
theorem holdsAll_append {d : Draft} {ts us : List (Tree (Nat × ClauseDraft))} :
    d.HoldsAll (ts ++ us) ↔ d.HoldsAll ts ∧ d.HoldsAll us := by
  induction ts with
  | nil => simp [HoldsAll]
  | cons t ts ih => simp [HoldsAll, ih, and_assoc]

mutual
/-- Whether a tree stands in the array depends on the clauses of the tree only. -/
theorem Holds.congr {d e : Draft} : {t : Tree (Nat × ClauseDraft)} → d.Holds t →
    (∀ i ∈ t.ids, e.clauses[i]? = d.clauses[i]?) → e.Holds t
  | .node (id, c) ts, ⟨hclause, hchildren, hts⟩, hsame => by
    rw [Tree.ids_node, List.forall_mem_cons] at hsame
    exact ⟨hsame.1.trans hclause, hchildren, HoldsAll.congr hts hsame.2⟩

theorem HoldsAll.congr {d e : Draft} : {ts : List (Tree (Nat × ClauseDraft))} → d.HoldsAll ts →
    (∀ i ∈ Tree.idsAll ts, e.clauses[i]? = d.clauses[i]?) → e.HoldsAll ts
  | [], _, _ => trivial
  | t :: ts, ⟨ht, hts⟩, hsame => by
    rw [Tree.idsAll_cons, List.forall_mem_append] at hsame
    exact ⟨Holds.congr ht hsame.1, HoldsAll.congr hts hsame.2⟩
end

def Below (d : Draft) : Nat → Nat → Prop := Relation.ReflTransGen fun i j => j ∈ d.childrenOf i

namespace Arranged
variable {d : Draft}

theorem le_of_below (h : d.Arranged) {i j : Nat} (hbelow : d.Below i j) : i ≤ j := by
  induction hbelow with
  | refl => exact Nat.le_refl i
  | tail _ hchild ih =>
    have hinside := h.inside _ _ hchild
    omega

theorem lt_size_of_below (h : d.Arranged) {i j : Nat} (hi : i < d.clauses.size)
    (hbelow : d.Below i j) : j < d.clauses.size := by
  obtain rfl | ⟨last, -, hchild⟩ := Relation.ReflTransGen.cases_tail hbelow
  · exact hi
  · exact (h.inside last j hchild).2

theorem eq_of_below_sibling (h : d.Arranged) {parent a b : Nat} (ha : a ∈ d.childrenOf parent)
    (hb : b ∈ d.childrenOf parent) (hbelow : d.Below a b) : a = b := by
  obtain rfl | ⟨last, hlast, hchild⟩ := Relation.ReflTransGen.cases_tail hbelow
  · rfl
  · -- The way from `a` to `b` would pass through the clause around both.
    obtain rfl := h.parent_unique last parent b hchild hb
    have hle := h.le_of_below hlast
    have hinside := h.inside last a ha
    omega

/-- Different clauses of one clause have nothing below them in common. -/
theorem eq_of_below_common (h : d.Arranged) {parent a b i : Nat} (ha : a ∈ d.childrenOf parent)
    (hb : b ∈ d.childrenOf parent) (hai : d.Below a i) (hbi : d.Below b i) : a = b := by
  have hunique : Relator.RightUnique (Function.swap fun i j => j ∈ d.childrenOf i) :=
    fun child i j hi hj => h.parent_unique i j child hi hj
  -- Going up from `i` there is no choice, so one of the two is met on the way to the other.
  obtain hab | hba := Relation.ReflTransGen.total_of_right_unique hunique hai.swap hbi.swap
  · exact (h.eq_of_below_sibling hb ha hab.swap).symm
  · exact h.eq_of_below_sibling ha hb hba.swap

mutual
theorem below_of_mem_ids : (t : Tree (Nat × ClauseDraft)) → d.Holds t → ∀ i ∈ t.ids,
    d.Below t.index i
  | .node (id, c) ts, h, i, hi => by
    rw [Tree.ids_node] at hi
    obtain rfl | hi := List.mem_cons.1 hi
    · exact .refl
    · obtain ⟨t, ht, hbelow⟩ := below_of_mem_idsAll ts h.2.2 i hi
      exact .head (h.index_mem ht) hbelow

theorem below_of_mem_idsAll : (ts : List (Tree (Nat × ClauseDraft))) → d.HoldsAll ts →
    ∀ i ∈ Tree.idsAll ts, ∃ t ∈ ts, d.Below t.index i
  | [], _, i, hi => absurd hi List.not_mem_nil
  | t :: ts, ⟨ht, hts⟩, i, hi => by
    rw [Tree.idsAll_cons] at hi
    obtain hi | hi := List.mem_append.1 hi
    · exact ⟨t, List.mem_cons_self, below_of_mem_ids t ht i hi⟩
    · obtain ⟨t', ht', hbelow⟩ := below_of_mem_idsAll ts hts i hi
      exact ⟨t', List.mem_cons_of_mem t ht', hbelow⟩
end

theorem lt_size_of_mem_ids (h : d.Arranged) {t : Tree (Nat × ClauseDraft)} (ht : d.Holds t)
    {i : Nat} (hi : i ∈ t.ids) : i < d.clauses.size :=
  h.lt_size_of_below ht.index_lt (below_of_mem_ids t ht i hi)

mutual
/-- No index occurs twice in a tree of clauses. -/
theorem nodup_ids (h : d.Arranged) : (t : Tree (Nat × ClauseDraft)) → d.Holds t → t.ids.Nodup
  | .node (id, c) ts, hnode => by
    have ⟨hclause, hchildren, hts⟩ := hnode
    have hincreasing := h.increasing id
    rw [childrenOf_of_clause hclause, hchildren, List.pairwise_map] at hincreasing
    rw [Tree.ids_node]
    refine List.nodup_cons.2 ⟨fun hid => ?_,
      nodup_idsAll h id ts hts (fun t => hnode.index_mem) hincreasing⟩
    obtain ⟨t, ht, hbelow⟩ := below_of_mem_idsAll ts hts id hid
    have hle := h.le_of_below hbelow
    have hinside := h.inside id t.index (hnode.index_mem ht)
    omega

theorem nodup_idsAll (h : d.Arranged) (parent : Nat) :
    (ts : List (Tree (Nat × ClauseDraft))) → d.HoldsAll ts →
    (∀ t ∈ ts, t.index ∈ d.childrenOf parent) → ts.Pairwise (fun t u => t.index < u.index) →
    (Tree.idsAll ts).Nodup
  | [], _, _, _ => List.nodup_nil
  | t :: ts, ⟨ht, hts⟩, hchild, hincreasing => by
    obtain ⟨hfirst, hrest⟩ := List.pairwise_cons.1 hincreasing
    obtain ⟨hchildt, hchildts⟩ := List.forall_mem_cons.1 hchild
    rw [Tree.idsAll_cons]
    refine List.nodup_append'.2
      ⟨nodup_ids h t ht, nodup_idsAll h parent ts hts hchildts hrest, fun i hi hi' => ?_⟩
    obtain ⟨u, hu, hbelow⟩ := below_of_mem_idsAll ts hts i hi'
    have heq := h.eq_of_below_common hchildt (hchildts u hu) (below_of_mem_ids t ht i hi) hbelow
    have hlt := hfirst u hu
    omega
end

theorem exists_holdsAll {ids : List Nat} (h : ∀ id ∈ ids, ∃ t, d.Holds t ∧ t.index = id) :
    ∃ ts, d.HoldsAll ts ∧ ids = ts.map Tree.index := by
  induction ids with
  | nil => exact ⟨[], trivial, rfl⟩
  | cons id ids ih =>
    obtain ⟨⟨t, ht, hid⟩, hrest⟩ := List.forall_mem_cons.1 h
    obtain ⟨ts, hts, hids⟩ := ih hrest
    exact ⟨t :: ts, ⟨ht, hts⟩, by rw [List.map_cons, hid, hids]⟩

/-- Below every clause there is a tree. -/
theorem exists_holds (h : d.Arranged) (id : Nat) (hid : id < d.clauses.size) :
    ∃ t, d.Holds t ∧ t.index = id := by
  have hclause := Array.getElem?_eq_getElem hid
  have hchildren : ∀ child ∈ d.clauses[id].children, ∃ t, d.Holds t ∧ t.index = child := by
    intro child hchild
    rw [← childrenOf_of_clause hclause] at hchild
    have hinside := h.inside id child hchild
    exact exists_holds h child hinside.2
  obtain ⟨ts, hts, hids⟩ := exists_holdsAll hchildren
  exact ⟨.node (id, d.clauses[id]) ts, ⟨hclause, hids, hts⟩, rfl⟩
termination_by d.clauses.size - id

mutual
/-- A tree is read off the array if the depth covers the indices from its root on. -/
theorem subtree?_eq (h : d.Arranged) (depth : Nat) : (t : Tree (Nat × ClauseDraft)) → d.Holds t →
    d.clauses.size ≤ depth + t.index → d.subtree? depth t.index = some t
  | .node (id, c) ts, hnode, hdepth => by
    have ⟨hclause, hchildren, hts⟩ := hnode
    have hid := lt_size_of_clause hclause
    have hindex : (Tree.node (id, c) ts).index = id := rfl
    rw [hindex] at hdepth ⊢
    obtain ⟨depth, rfl⟩ : ∃ n, depth = n + 1 := Nat.exists_eq_add_of_le' (by omega)
    have hrest : ∀ t ∈ ts, d.clauses.size ≤ depth + t.index := fun t ht => by
      have hinside := h.inside id t.index (hnode.index_mem ht)
      omega
    rw [subtree?, hclause]
    simp only [Option.bind_eq_bind, Option.bind_some, hchildren,
      mapM_subtree? h depth ts hts hrest]

theorem mapM_subtree? (h : d.Arranged) (depth : Nat) : (ts : List (Tree (Nat × ClauseDraft))) →
    d.HoldsAll ts → (∀ t ∈ ts, d.clauses.size ≤ depth + t.index) →
    (ts.map Tree.index).mapM (d.subtree? depth) = some ts
  | [], _, _ => rfl
  | t :: ts, ⟨ht, hts⟩, hdepth => by
    obtain ⟨hdeptht, hdepthts⟩ := List.forall_mem_cons.1 hdepth
    simp [subtree?_eq h depth t ht hdeptht, mapM_subtree? h depth ts hts hdepthts]
end

theorem clauseTree?_eq (h : d.Arranged) {t : Tree (Nat × ClauseDraft)} (ht : d.Holds t) :
    d.clauseTree? t.index = some t :=
  h.subtree?_eq d.clauses.size t ht (Nat.le_add_right ..)

end Arranged

/-- The clauses under the root can be read off the array of a sound draft. -/
theorem Sound.exists_clauseTree? {d : Draft} (h : d.Sound) {root : Nat}
    (hroot : d.root = some root) :
    ∃ t, d.Holds t ∧ t.index = root ∧ d.clauseTree? root = some t := by
  obtain ⟨t, ht, rfl⟩ := h.exists_holds root (h.root_free root hroot).1
  exact ⟨t, ht, rfl, h.clauseTree?_eq ht⟩

end Draft
end TableLang
