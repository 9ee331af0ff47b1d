import TableLang.Proofs.Query.Outline
import TableLang.Proofs.Text.Lines
import TableLang.Tree

/-! The walk through a query, and the pass over its events that writes the outline. The conditions
are entered in preorder and left in postorder, and those that are open at a moment form a path from
the whole condition inwards. The depth that the pass keeps is the length of this path and one more,
so that the outline is the one that recursion on the condition gives. -/
namespace TableLang

namespace Condition

def comparison? : Condition → Option Predicate
  | group _ _ => none
  | predicate p => some p

theorem eventsAll_eq_flatMap (index : Nat) (cs : List Condition) :
    eventsAll index cs = (cs.zipIdx index).flatMap fun part => part.1.events part.2 := by
  induction cs generalizing index with
  | nil => rfl
  | cons c cs ih => simp [eventsAll, ih]

/-- Within a condition its comparison comes first, then its parts with their places among each
other. -/
theorem events_eq (index : Nat) (c : Condition) :
    c.events index = .enter index c :: (c.comparison?.toList.map .predicate ++
      (c.parts.zipIdx.flatMap fun part => part.1.events part.2) ++ [.leave c]) := by
  cases c with
  | group connective parts =>
    simp [events, comparison?, Condition.parts, eventsAll_eq_flatMap]
  | predicate p => simp [events, comparison?, Condition.parts]

mutual
def tree (index : Nat) : Condition → Tree (Nat × Condition)
  | group c parts => .node (index, group c parts) (trees 0 parts)
  | predicate p => .node (index, predicate p) []

def trees (index : Nat) : List Condition → List (Tree (Nat × Condition))
  | [] => []
  | c :: cs => c.tree index :: trees (index + 1) cs
end

end Condition

namespace Event

def entered? : Event → Option (Nat × Condition)
  | enter index c => some (index, c)
  | _ => none

def left? : Event → Option Condition
  | leave c => some c
  | _ => none

end Event

namespace Condition

mutual
theorem filterMap_entered?_events (index : Nat) :
    (c : Condition) → (c.events index).filterMap Event.entered? = (c.tree index).preorder
  | group c parts => by
    simp [events, tree, Tree.preorder, Event.entered?, filterMap_entered?_eventsAll 0 parts]
  | predicate p => rfl

theorem filterMap_entered?_eventsAll (index : Nat) : (cs : List Condition) →
    (eventsAll index cs).filterMap Event.entered? = Tree.preorderForest (trees index cs)
  | [] => rfl
  | c :: cs => by
    simp [eventsAll, trees, Tree.preorderForest, filterMap_entered?_events index c,
      filterMap_entered?_eventsAll (index + 1) cs]
end

mutual
theorem filterMap_left?_events (index : Nat) : (c : Condition) →
    (c.events index).filterMap Event.left? = (c.tree index).postorder.map Prod.snd
  | group c parts => by
    simp [events, tree, Tree.postorder, List.filterMap_cons, Event.left?,
      filterMap_left?_eventsAll 0 parts]
  | predicate p => rfl

theorem filterMap_left?_eventsAll (index : Nat) : (cs : List Condition) →
    (eventsAll index cs).filterMap Event.left? =
      (Tree.postorderForest (trees index cs)).map Prod.snd
  | [] => rfl
  | c :: cs => by
    simp [eventsAll, trees, Tree.postorderForest, filterMap_left?_events index c,
      filterMap_left?_eventsAll (index + 1) cs]
end

def StandsIn (index : Nat) (c : Condition) : List Condition → Prop
  | [] => index = 0
  | outer :: _ => outer.parts[index]? = some c

instance (index : Nat) (c : Condition) : (opened : List Condition) →
    Decidable (c.StandsIn index opened)
  | [] => inferInstanceAs (Decidable (index = 0))
  | outer :: _ => inferInstanceAs (Decidable (outer.parts[index]? = some c))

end Condition

/-- The conditions that are open after an event, the innermost first, or nothing if the event has
no place there: a condition is left only where it is the innermost, a comparison is met only in its
own condition, and all else only where no condition is open. -/
def openAfter (opened : List Condition) : Event → Option (List Condition)
  | .enter index c => if c.StandsIn index opened then some (c :: opened) else none
  | .leave c => if opened.head? = some c then some opened.tail else none
  | .predicate p => if opened.head? = some (.predicate p) then some opened else none
  | _ => if opened = [] then some [] else none

namespace Condition

mutual
/-- After the walk through a condition those are open that were open before. -/
theorem foldlM_openAfter_events (opened : List Condition) : (c : Condition) → (index : Nat) →
    c.StandsIn index opened → (c.events index).foldlM openAfter opened = some opened
  | group c parts, index, h => by
    have hparts := foldlM_openAfter_eventsAll (group c parts) opened parts 0 rfl
    simp [events, openAfter, h, hparts]
  | predicate p, index, h => by simp [events, openAfter, h]

/-- The row holds the last parts of the condition that is open, from the one at `index` on. -/
theorem foldlM_openAfter_eventsAll (outer : Condition) (opened : List Condition) :
    (cs : List Condition) → (index : Nat) → outer.parts.drop index = cs →
    (eventsAll index cs).foldlM openAfter (outer :: opened) = some (outer :: opened)
  | [], _, _ => rfl
  | c :: cs, index, h => by
    have hplace : c.StandsIn index (outer :: opened) := by
      rw [StandsIn, ← List.head?_drop, h, List.head?_cons]
    have hlater : outer.parts.drop (index + 1) = cs := by
      rw [← List.tail_drop, h, List.tail_cons]
    rw [eventsAll, List.foldlM_append, foldlM_openAfter_events (outer :: opened) c index hplace]
    exact foldlM_openAfter_eventsAll outer opened cs (index + 1) hlater
end

def treeLine (row : Nat × Nat × Condition) : String :=
  String.ofList (List.replicate (2 * (row.1 + 2)) ' ') ++ row.2.2.headline

mutual
/-- The lines for a condition are those of its tree, each indented by its depth there and two
more. -/
theorem outline_eq_ofLines (depth index : Nat) : (c : Condition) → c.outline (depth + 2) =
    Text.ofLines (((c.tree index).levels depth).map treeLine)
  | group c parts => by
    have hparts := outlineAll_eq_ofLines (depth + 1) 0 parts
    simp [outline, tree, Tree.levels, treeLine, headline, hparts, indented, Text.ofLines]
  | predicate p => by
    simp [outline, tree, Tree.levels, Tree.levelsForest, treeLine, headline, indented, Text.ofLines]

theorem outlineAll_eq_ofLines (depth index : Nat) : (cs : List Condition) →
    outlineAll (depth + 2) cs =
      Text.ofLines ((Tree.levelsForest depth (trees index cs)).map treeLine)
  | [] => rfl
  | c :: cs => by
    rw [outlineAll, trees, Tree.levelsForest, List.map_append, Text.ofLines_append,
      outline_eq_ofLines depth index c, outlineAll_eq_ofLines depth (index + 1) cs]
end

end Condition

namespace Outline

@[simp]
theorem depth_line (o : Outline) (text : String) : (o.line text).depth = o.depth := rfl

theorem depth_select (o : Outline) (s : Selection) : (o.step (.select s)).depth = o.depth := by
  cases hlimit : s.rowLimit <;> by_cases hcondition : s.condition.isSome = true <;>
    simp [step, hlimit, hcondition]

end Outline

/-- The depth that the pass keeps is the number of conditions that are open, and one more. -/
theorem depth_step {opened opened' : List Condition} {o : Outline} {e : Event}
    (hopen : openAfter opened e = some opened') (hdepth : o.depth = opened.length + 1) :
    (o.step e).depth = opened'.length + 1 := by
  cases e with
  | enter index c =>
    obtain ⟨-, rfl⟩ : c.StandsIn index opened ∧ c :: opened = opened' := by
      simpa [openAfter] using hopen
    cases c <;> simp [Outline.step, hdepth]
  | leave c =>
    obtain ⟨hhead, rfl⟩ : opened.head? = some c ∧ opened.tail = opened' := by
      simpa [openAfter] using hopen
    -- The condition that is left is open, so the subtraction cuts nothing off.
    obtain ⟨outer, rfl⟩ := List.head?_eq_some_iff.1 hhead
    simp [Outline.step, hdepth]
  | predicate p =>
    obtain ⟨-, rfl⟩ : opened.head? = some (.predicate p) ∧ opened = opened' := by
      simpa [openAfter] using hopen
    exact hdepth
  | select s =>
    obtain ⟨rfl, rfl⟩ : opened = [] ∧ [] = opened' := by simpa [openAfter] using hopen
    exact (o.depth_select s).trans hdepth
  | _ =>
    obtain ⟨rfl, rfl⟩ : opened = [] ∧ [] = opened' := by simpa [openAfter] using hopen
    simp [Outline.step, hdepth]

theorem depth_foldl {opened opened' : List Condition} {o : Outline} {events : List Event}
    (hopen : events.foldlM openAfter opened = some opened')
    (hdepth : o.depth = opened.length + 1) :
    (events.foldl Outline.step o).depth = opened'.length + 1 := by
  induction events generalizing opened o with
  | nil =>
    cases hopen
    exact hdepth
  | cons e events ih =>
    rw [List.foldlM_cons] at hopen
    obtain ⟨between, hfirst, hrest⟩ := Option.bind_eq_some_iff.1 hopen
    exact ih hrest (depth_step hfirst hdepth)

/-- The conditions that are open are known at any moment of a walk that can be followed to its
end. -/
theorem exists_open_take {opened opened' : List Condition} {events : List Event}
    (hopen : events.foldlM openAfter opened = some opened') (n : Nat) :
    ∃ between, (events.take n).foldlM openAfter opened = some between ∧
      (events.drop n).foldlM openAfter between = some opened' := by
  rw [← List.take_append_drop n events, List.foldlM_append] at hopen
  exact Option.bind_eq_some_iff.1 hopen

/-- Where a condition is left, one is open, so the depth can be reduced. -/
theorem two_le_depth_of_leave {opened opened' : List Condition} {o : Outline}
    {events : List Event} {n : Nat} {c : Condition}
    (hopen : events.foldlM openAfter opened = some opened')
    (hdepth : o.depth = opened.length + 1) (hleave : events[n]? = some (.leave c)) :
    2 ≤ ((events.take n).foldl Outline.step o).depth := by
  obtain ⟨between, hbefore, hafter⟩ := exists_open_take hopen n
  obtain ⟨hn, hevent⟩ := List.getElem?_eq_some_iff.1 hleave
  rw [List.drop_eq_getElem_cons hn, hevent, List.foldlM_cons] at hafter
  obtain ⟨inside, hstep, -⟩ := Option.bind_eq_some_iff.1 hafter
  rw [depth_foldl hbefore hdepth]
  cases between with
  | nil => simp [openAfter] at hstep
  | cons outer rest => simp

namespace Body

def condition? : Body → Option Condition
  | select s => s.condition
  | join _ => none

theorem foldlM_openAfter_rows (rows : List Row) (index : Nat) :
    ((rows.zipIdx index).map fun r => Event.row r.2 r.1).foldlM openAfter [] = some [] := by
  induction rows generalizing index with
  | nil => rfl
  | cons r rows ih => exact ih (index + 1)

theorem foldlM_openAfter_events (body : Body) : body.events.foldlM openAfter [] = some [] := by
  cases body with
  | select s =>
    cases hcondition : s.condition with
    | none => simp [events, hcondition, openAfter]
    | some c =>
      have hwalk := c.foldlM_openAfter_events [] 0 rfl
      simp [events, hcondition, openAfter, hwalk]
  | join rows => exact foldlM_openAfter_rows rows 0

/-- What is picked from the events within a condition is all that is picked, if it is not picked
from the others. -/
theorem filterMap_events {β : Type} (pick : Event → Option β)
    (hselect : ∀ s, pick (.select s) = none) (hjoin : ∀ rows, pick (.join rows) = none)
    (hrow : ∀ index r, pick (.row index r) = none) (body : Body) : body.events.filterMap pick =
      body.condition?.toList.flatMap fun c => (c.events 0).filterMap pick := by
  cases body with
  | select s => cases hcondition : s.condition <;> simp [events, condition?, hcondition, hselect]
  | join rows =>
    have hrows : (rows.zipIdx.map fun r => Event.row r.2 r.1).filterMap pick = [] := by
      rw [List.filterMap_map]
      exact List.filterMap_eq_nil_iff.2 fun r _ => hrow r.2 r.1
    rw [events, List.filterMap_cons_none (hjoin rows), hrows]
    rfl

end Body

structure Query.WalkedInOrder (q : Query) : Prop where
  /-- The draft, the operation and the key of the table come first. Of a selection its condition is
  walked through, of a join every row is met with its index. -/
  events_eq : q.events = .draft q.draft :: .operation q.operation :: .tableKey q.tableKey ::
    match q.body with
    | .select s => .select s :: s.condition.toList.flatMap (·.events 0)
    | .join rows => .join rows :: rows.zipIdx.map fun r => .row r.2 r.1
  /-- A condition is entered with its index among its neighbours. Then come its comparison, if it
  is one, and the walks through its parts, and then it is left. -/
  condition_eq : ∀ (index : Nat) (c : Condition), c.events index =
    .enter index c :: (c.comparison?.toList.map .predicate ++
      (c.parts.zipIdx.flatMap fun part => part.1.events part.2) ++ [.leave c])
  /-- Conditions are entered in preorder. -/
  entered_eq : q.events.filterMap Event.entered? =
    q.body.condition?.toList.flatMap fun c => (c.tree 0).preorder
  /-- Conditions are left in postorder. -/
  left_eq : q.events.filterMap Event.left? =
    q.body.condition?.toList.flatMap fun c => (c.tree 0).postorder.map Prod.snd
  /-- Whatever is met has its place in the conditions that are open, and none is open at the
  end. -/
  bracketed : q.events.foldlM openAfter [] = some []

structure Query.OutlinedInStep (q : Query) : Prop where
  /-- The outline is the one by recursion. -/
  outline_eq : q.outline = q.operation.name ++ " " ++ q.tableKey ++ "\n" ++ q.body.outline
  /-- A condition at the depth `k` of its tree has a line that begins with `2 * (k + 2)` blanks. -/
  lines_eq : ∀ c ∈ q.body.condition?,
    c.outline 2 = Text.ofLines (((c.tree 0).levels 0).map Condition.treeLine)
  /-- After the first three events the depth is never less than one: it counts the conditions that
  are open, from one on. -/
  depth_eq : ∀ n, ∃ opened, (q.events.take (n + 3)).foldlM openAfter [] = some opened ∧
    ((q.events.take (n + 3)).foldl Outline.step .empty).depth = opened.length + 1
  /-- The depth can be reduced whenever a condition is left. -/
  two_le_depth : ∀ n c, q.events[n]? = some (.leave c) →
    2 ≤ ((q.events.take n).foldl Outline.step .empty).depth
  /-- In the end the depth is one again. -/
  depth_end : (q.events.foldl Outline.step .empty).depth = 1

namespace Query

theorem walkedInOrder (q : Query) : q.WalkedInOrder where
  events_eq := by
    cases hbody : q.body with
    | select s => cases hcondition : s.condition <;> simp [events, Body.events, hbody, hcondition]
    | join rows => simp [events, Body.events, hbody]
  condition_eq := Condition.events_eq
  entered_eq := by
    have hbody :=
      q.body.filterMap_events Event.entered? (fun _ => rfl) (fun _ => rfl) fun _ _ => rfl
    simp only [Condition.filterMap_entered?_events] at hbody
    exact hbody
  left_eq := by
    have hbody :=
      q.body.filterMap_events Event.left? (fun _ => rfl) (fun _ => rfl) fun _ _ => rfl
    simp only [Condition.filterMap_left?_events] at hbody
    exact hbody
  bracketed := q.body.foldlM_openAfter_events

def begun (q : Query) : Outline :=
  [.draft q.draft, .operation q.operation, .tableKey q.tableKey].foldl Outline.step .empty

theorem depth_begun (q : Query) : q.begun.depth = ([] : List Condition).length + 1 := rfl

theorem outlinedInStep (q : Query) : q.OutlinedInStep where
  outline_eq := q.outline_eq
  lines_eq := fun c _ => c.outline_eq_ofLines 0 0
  depth_eq := by
    intro n
    obtain ⟨opened, hopen, -⟩ := exists_open_take q.body.foldlM_openAfter_events n
    refine ⟨opened, hopen, ?_⟩
    change ((q.body.events.take n).foldl Outline.step q.begun).depth = _
    exact depth_foldl hopen q.depth_begun
  two_le_depth := by
    intro n c hleave
    -- None of the first three events leaves a condition.
    match n, hleave with
    | n + 3, hleave =>
      have hbody : q.body.events[n]? = some (.leave c) := hleave
      change 2 ≤ ((q.body.events.take n).foldl Outline.step q.begun).depth
      exact two_le_depth_of_leave q.body.foldlM_openAfter_events q.depth_begun hbody
  depth_end := by
    change (q.body.events.foldl Outline.step q.begun).depth = 1
    exact depth_foldl q.body.foldlM_openAfter_events q.depth_begun

end Query

/-- The walk through a query meets its condition as a tree, from the outside in and from the first
part to the last, and leaves all that it enters. The pass that follows the walk writes the outline
that recursion on the condition gives. -/
theorem walk_outlines_by_recursion (q : Query) : q.WalkedInOrder ∧ q.OutlinedInStep :=
  ⟨q.walkedInOrder, q.outlinedInStep⟩

end TableLang
