import TableLang.Draft.Edit

/-! A plain picture of a query under construction: one tree of clauses with a focus in it, and no
indices. The edits are told again for it, and so is what they cannot do. -/
namespace TableLang

namespace Tree
variable {α β : Type}

mutual
def map (f : α → β) : Tree α → Tree β
  | node a ts => node (f a) (mapAll f ts)

def mapAll (f : α → β) : List (Tree α) → List (Tree β)
  | [] => []
  | t :: ts => map f t :: mapAll f ts
end

/-- The part of a tree at an address, which gives the position among its neighbours of each node on
the way down from the root. -/
def at? : Tree α → List Nat → Option (Tree α)
  | t, [] => some t
  | node _ ts, i :: address => ts[i]?.bind fun t => t.at? address

def replaceAt : Tree α → List Nat → Tree α → Tree α
  | _, [], u => u
  | node a ts, i :: address, u => node a (ts.modify i fun t => t.replaceAt address u)

theorem at?_append (t : Tree α) (first second : List Nat) :
    t.at? (first ++ second) = (t.at? first).bind fun u => u.at? second := by
  induction first generalizing t with
  | nil => rfl
  | cons i first ih =>
    obtain ⟨a, ts⟩ := t
    simp [at?, ih, Option.bind_assoc]

theorem at?_replaceAt {t u : Tree α} {address : List Nat} (h : (t.at? address).isSome = true) :
    (t.replaceAt address u).at? address = some u := by
  induction address generalizing t with
  | nil => rfl
  | cons i address ih =>
    obtain ⟨a, ts⟩ := t
    cases hi : ts[i]? with
    | none => simp [at?, hi] at h
    | some v =>
      simp only [at?, hi, Option.bind_some] at h
      simp [at?, replaceAt, hi, ih h]

end Tree

structure Focused (α : Type) where
  tree : Tree α
  focus : List Nat
  inside : (tree.at? focus).isSome = true

namespace Focused
variable {α : Type}

def single (a : α) : Focused α := ⟨.node a [], [], rfl⟩

def here (f : Focused α) : Tree α := (f.tree.at? f.focus).get f.inside

def put (f : Focused α) (u : Tree α) : Focused α where
  tree := f.tree.replaceAt f.focus u
  focus := f.focus
  inside := by rw [Tree.at?_replaceAt f.inside]; rfl

def relabel (f : Focused α) (a : α) : Focused α := f.put (.node a f.here.children)

def enter (f : Focused α) (a : α) : Focused α where
  tree := f.tree.replaceAt f.focus (.node f.here.label (f.here.children ++ [.node a []]))
  focus := f.focus ++ [f.here.children.length]
  inside := by
    rw [Tree.at?_append, Tree.at?_replaceAt f.inside]
    simp [Tree.at?]

def leave (f : Focused α) : Focused α where
  tree := f.tree
  focus := f.focus.dropLast
  inside := by
    have h := f.inside
    obtain hnil | ⟨address, i, hfocus⟩ := List.eq_nil_or_concat f.focus
    · rwa [hnil] at h ⊢
    · rw [List.concat_eq_append] at hfocus
      rw [hfocus, Tree.at?_append] at h
      rw [hfocus, List.dropLast_concat]
      exact Option.isSome_of_isSome_bind h

end Focused

structure ClauseHead where
  command : String := ""
  predicate : Option PredicateDraft := none

structure Sketch where
  command : String := ""
  tableKey : String := ""
  limit : String := ""
  clauses : Option (Focused ClauseHead) := none

namespace Sketch

def editHere (s : Sketch) (change : ClauseHead → Except Fault ClauseHead) : Except Fault Sketch :=
  match s.clauses with
  | none => .error .noClause
  | some f => (change f.here.label).map fun a => { s with clauses := some (f.relabel a) }

def editPredicate (s : Sketch) (change : PredicateDraft → PredicateDraft) : Except Fault Sketch :=
  s.editHere fun a =>
    match a.predicate with
    | none => .error (.noPredicate a.command)
    | some p => .ok { a with predicate := some (change p) }

def apply (s : Sketch) : Edit → Except Fault Sketch
  | .chooseSelect => .ok { s with command := "select" }
  | .nameTable key => .ok { s with tableKey := key }
  | .setLimit text => .ok { s with limit := text }
  | .openRoot => .ok { s with clauses := some (.single { command := "and" }) }
  | .enterClause =>
    match s.clauses with
    | none => .error .noClause
    | some f => .ok { s with clauses := some (f.enter {}) }
  | .leaveClause =>
    match s.clauses with
    | none => .error .noClause
    | some f => if f.focus = [] then .error .atRoot else .ok { s with clauses := some f.leave }
  | .becomePredicate =>
    s.editHere fun a => .ok { a with command := "predicate", predicate := some {} }
  | .becomeGroup connective => s.editHere fun a => .ok { a with command := connective.name }
  | .nameComparison word => s.editPredicate fun p => { p with command := word }
  | .useRowKey => s.editPredicate fun p => { p with usesRowKey := true }
  | .addKey key => s.editPredicate fun p => { p with keys := p.keys ++ [key] }
  | .addLiteral text => s.editPredicate fun p => { p with literals := p.literals ++ [text] }

def applyAll (s : Sketch) (edits : List Edit) : Except Fault Sketch := edits.foldlM Sketch.apply s

end Sketch

namespace Edit

def EditsPredicate : Edit → Prop
  | nameComparison _ | useRowKey | addKey _ | addLiteral _ => True
  | _ => False

def NeedsClause : Edit → Prop
  | chooseSelect | nameTable _ | setLimit _ | openRoot => False
  | _ => True

end Edit

theorem Edit.EditsPredicate.needsClause {edit : Edit} (h : edit.EditsPredicate) :
    edit.NeedsClause := by
  cases edit <;> trivial

/-- The steps that cannot be taken, and why. -/
inductive Sketch.Stuck (s : Sketch) : Edit → Fault → Prop where
  | noClause {edit : Edit} (h : s.clauses = none) (needs : edit.NeedsClause) :
    s.Stuck edit .noClause
  | atRoot {f : Focused ClauseHead} (h : s.clauses = some f) (root : f.focus = []) :
    s.Stuck .leaveClause .atRoot
  | noPredicate {f : Focused ClauseHead} {edit : Edit} (h : s.clauses = some f)
    (edits : edit.EditsPredicate) (none : f.here.label.predicate = none) :
    s.Stuck edit (.noPredicate f.here.label.command)

namespace Sketch

theorem editHere_eq_error_iff {s : Sketch} {change : ClauseHead → Except Fault ClauseHead}
    {fault : Fault} :
    s.editHere change = .error fault ↔ s.clauses = none ∧ fault = .noClause ∨
      ∃ f, s.clauses = some f ∧ change f.here.label = .error fault := by
  unfold editHere
  cases s.clauses with
  | none => simp [eq_comm]
  | some f => cases hchange : change f.here.label <;> simp [Except.map, hchange]

theorem Stuck.needsClause {s : Sketch} {edit : Edit} {fault : Fault} (h : s.Stuck edit fault) :
    edit.NeedsClause := by
  cases h with
  | noClause h needs => exact needs
  | atRoot h root => trivial
  | noPredicate h edits none => exact edits.needsClause

theorem stuck_iff_of_plain {s : Sketch} (edit : Edit) {fault : Fault} (hneeds : edit.NeedsClause)
    (hleave : edit ≠ .leaveClause) (hedits : ¬ edit.EditsPredicate) :
    s.Stuck edit fault ↔ s.clauses = none ∧ fault = .noClause := by
  constructor
  · intro h
    cases h with
    | noClause h needs => exact ⟨h, rfl⟩
    | atRoot h root => exact absurd rfl hleave
    | noPredicate h edits none => exact absurd edits hedits
  · rintro ⟨hnone, rfl⟩
    exact .noClause hnone hneeds

theorem editPredicate_eq_error_iff {s : Sketch} (edit : Edit) (hedit : edit.EditsPredicate)
    {change : PredicateDraft → PredicateDraft} {fault : Fault} :
    s.editPredicate change = .error fault ↔ s.Stuck edit fault := by
  rw [editPredicate, editHere_eq_error_iff]
  constructor
  · rintro (⟨hnone, rfl⟩ | ⟨f, hf, hchange⟩)
    · exact .noClause hnone hedit.needsClause
    · cases hp : f.here.label.predicate with
      | none =>
        simp only [hp] at hchange
        cases hchange
        exact .noPredicate hf hedit hp
      | some p =>
        simp only [hp] at hchange
        cases hchange
  · intro h
    cases h with
    | noClause hnone needs => exact .inl ⟨hnone, rfl⟩
    | atRoot hf root => exact hedit.elim
    | noPredicate hf edits hp => exact .inr ⟨_, hf, by simp only [hp]⟩

theorem apply_leaveClause_eq_error_iff {s : Sketch} {fault : Fault} :
    s.apply .leaveClause = .error fault ↔ s.Stuck .leaveClause fault := by
  unfold apply
  constructor
  · intro h
    cases hf : s.clauses with
    | none =>
      simp only [hf] at h
      cases h
      exact .noClause hf trivial
    | some f =>
      simp only [hf] at h
      split at h
      · rename_i hroot
        cases h
        exact .atRoot hf hroot
      · cases h
  · intro h
    cases h with
    | noClause hnone needs => simp only [hnone]
    | atRoot hf root => simp only [hf, root, if_true]
    | noPredicate hf edits hp => exact edits.elim

/-- A step cannot be taken exactly when it is stuck. -/
theorem apply_eq_error_iff {s : Sketch} {edit : Edit} {fault : Fault} :
    s.apply edit = .error fault ↔ s.Stuck edit fault := by
  cases edit with
  | chooseSelect => exact iff_of_false nofun fun h => h.needsClause
  | nameTable key => exact iff_of_false nofun fun h => h.needsClause
  | setLimit text => exact iff_of_false nofun fun h => h.needsClause
  | openRoot => exact iff_of_false nofun fun h => h.needsClause
  | enterClause =>
    rw [stuck_iff_of_plain .enterClause trivial nofun nofun, apply]
    cases s.clauses <;> simp [eq_comm]
  | leaveClause => exact apply_leaveClause_eq_error_iff
  | becomePredicate =>
    rw [stuck_iff_of_plain .becomePredicate trivial nofun nofun, apply, editHere_eq_error_iff]
    simp
  | becomeGroup connective =>
    rw [stuck_iff_of_plain (.becomeGroup connective) trivial nofun nofun, apply,
      editHere_eq_error_iff]
    simp
  | nameComparison word => exact editPredicate_eq_error_iff (.nameComparison word) trivial
  | useRowKey => exact editPredicate_eq_error_iff .useRowKey trivial
  | addKey key => exact editPredicate_eq_error_iff (.addKey key) trivial
  | addLiteral text => exact editPredicate_eq_error_iff (.addLiteral text) trivial

end Sketch
end TableLang
