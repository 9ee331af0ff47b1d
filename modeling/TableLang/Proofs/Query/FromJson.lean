import TableLang.Draft.Edit
import TableLang.Proofs.Json
import TableLang.Proofs.Text.Numeral
import TableLang.Query.Compile
import TableLang.Query.ToJson

/-! Queries read back from JSON. Objects are looked into by name only, so that the order of their
members does not matter. Main statement: everything that a compiled query does can be read back from
its JSON value, and two compiled queries have the same value exactly when they do the same. -/
namespace TableLang

namespace Json

def member? : Json → String → Option Json
  | obj members, name => members.lookup name
  | _, _ => none

def flag? : Json → Option Bool
  | bool b => some b
  | _ => none

def number? : Json → Option Nat
  | num n => if n ≤ Text.maxNumeral then some n else none
  | _ => none

theorem number?_num {n : Nat} (h : n ≤ Text.maxNumeral) : (num n).number? = some n := if_pos h

def text? : Json → Option String
  | str s => some s
  | _ => none

def items? : Json → Option (List Json)
  | arr items => some items
  | _ => none

def texts? (j : Json) : Option (List String) := do
  (← j.items?).mapM text?

def entries? : Json → Option (List (String × List String))
  | obj members => members.mapM fun m => m.2.texts?.map fun texts => (m.1, texts)
  | _ => none

end Json

/-- A list that is written item by item can be read item by item. -/
theorem mapM_map_eq_some {α β : Type} {write : α → β} {read? : β → Option α}
    (h : ∀ a, read? (write a) = some a) (as : List α) : (as.map write).mapM read? = some as := by
  induction as with
  | nil => rfl
  | cons a as ih => simp [h a, ih]

@[simp]
theorem Json.texts?_strings (texts : List String) : (Json.strings texts).texts? = some texts := by
  have hread (s : String) : (Json.str s).text? = some s := rfl
  exact mapM_map_eq_some hread texts

-- Every word means what it is the word for.
@[simp]
theorem Operation.ofName?_name (op : Operation) : Operation.ofName? op.name = some op := by
  cases op <;> rfl

@[simp]
theorem ClauseKind.ofName?_name (kind : ClauseKind) : ClauseKind.ofName? kind.name = some kind := by
  rcases kind with (_ | _) | _ <;> rfl

@[simp]
theorem Comparison.ofName?_name (c : Comparison) : Comparison.ofName? c.name = some c := by
  cases c <;> rfl

def Predicate.ofJson? (j : Json) : Option Predicate := do
  let comparison ← Comparison.ofName? (← (← j.member? "op_code").text?)
  let keys ← (← j.member? "keys").texts?
  let literals ← (← j.member? "literals").texts?
  let usesRowKey ← (← j.member? "include_row_key").flag?
  some ⟨comparison, keys, literals, usesRowKey⟩

@[simp]
theorem Predicate.ofJson?_toJson (p : Predicate) : Predicate.ofJson? p.toJson = some p := by
  simp [Predicate.ofJson?, Predicate.toJson, Json.member?, List.lookup_cons, Json.text?, Json.flag?]

namespace Condition

mutual
def ofJson? : Json → Option Condition
  | .obj members =>
    match ((members.lookup "op_code").bind Json.text?).bind ClauseKind.ofName? with
    | some (.group c) => (partsIn? members).map (group c)
    | some .predicate => ((members.lookup "predicate").bind Predicate.ofJson?).map predicate
    | none => none
  | _ => none

def partsIn? : List (String × Json) → Option (List Condition)
  | [] => none
  | (name, j) :: rest => if name = "clauses" then listed? j else partsIn? rest

def listed? : Json → Option (List Condition)
  | .arr items => ofItems? items
  | _ => none

def ofItems? : List Json → Option (List Condition)
  | [] => some []
  | j :: js => do
    let c ← ofJson? j
    let cs ← ofItems? js
    some (c :: cs)
end

mutual
@[simp]
theorem ofJson?_toJson : (c : Condition) → ofJson? c.toJson = some c
  | group c parts => by
    have hkind : ClauseKind.ofName? c.name = some (.group c) := ClauseKind.ofName?_name (.group c)
    simp [toJson, ofJson?, List.lookup_cons, Json.text?, hkind, partsIn?, listed?,
      ofItems?_toJsonAll parts]
  | predicate p => by simp [toJson, ofJson?, List.lookup_cons, Json.text?]

theorem ofItems?_toJsonAll : (cs : List Condition) → ofItems? (toJsonAll cs) = some cs
  | [] => rfl
  | c :: cs => by simp [toJsonAll, ofItems?, ofJson?_toJson c, ofItems?_toJsonAll cs]
end

end Condition

def Selection.ofJson? (j : Json) : Option Selection := do
  let limit ← (← j.member? "limit").number?
  match j.member? "where" with
  | none => some ⟨limit, none⟩
  | some w => (Condition.ofJson? w).map fun c => ⟨limit, some c⟩

theorem Selection.ofJson?_toJson {s : Selection} (h : s.limit ≤ Text.maxNumeral) :
    Selection.ofJson? s.toJson = some s := by
  obtain ⟨limit, condition⟩ := s
  have hlimit : (Json.num limit).number? = some limit := Json.number?_num h
  cases condition <;>
    simp [Selection.ofJson?, Selection.toJson, Json.member?, List.lookup_cons, hlimit]

namespace Entries

theorem insertInto_of_lt {name : String} {values : List String}
    {es : List (String × List String)} (h : ∀ e ∈ es, e.1 < name) :
    insertInto name values es = es ++ [(name, values)] := by
  induction es with
  | nil => rfl
  | cons e es ih =>
    rw [List.forall_mem_cons] at h
    rw [insertInto, if_neg (String.lt_asymm h.1), if_pos h.1, ih h.2, List.cons_append]

theorem toList_foldl_insert (later : List (String × List String)) (es : Entries)
    (h : (es.toList ++ later).Pairwise fun a b => a.1 < b.1) :
    (later.foldl (fun es e => es.insert e.1 e.2) es).toList = es.toList ++ later := by
  induction later generalizing es with
  | nil => simp
  | cons e later ih =>
    have hbelow : ∀ d ∈ es.toList, d.1 < e.1 := fun d hd =>
      (List.pairwise_append.1 h).2.2 d hd e (List.mem_cons_self ..)
    have hinsert : (es.insert e.1 e.2).toList = es.toList ++ [e] := insertInto_of_lt hbelow
    rw [List.append_cons, ← hinsert] at h
    rw [List.foldl_cons, ih _ h, hinsert, List.append_assoc, List.singleton_append]

/-- Entries stored one after the other by increasing name are as they were. -/
theorem ofList_toList (es : Entries) : ofList es.toList = es := by
  have h := toList_foldl_insert es.toList empty es.sorted
  change mk (ofList es.toList).toList (ofList es.toList).sorted = mk es.toList es.sorted
  rw [mk.injEq]
  exact h

end Entries

def Row.ofJson? (j : Json) : Option Row := do
  let key ← (← j.member? "key").text?
  let entries ← (← j.member? "entries").entries?
  some ⟨key, .ofList entries⟩

theorem Row.ofJson?_toJson (r : Row) : Row.ofJson? r.toJson = some r := by
  have hentries : (Json.obj (r.entries.toList.map fun e => (e.1, .strings e.2))).entries? =
      some r.entries.toList := by
    refine mapM_map_eq_some ?_ r.entries.toList
    intro e
    simp
  simp [Row.ofJson?, Row.toJson, Json.member?, List.lookup_cons, Json.text?, hentries,
    Entries.ofList_toList]

def Query.ofJson? (j : Json) : Option (String × Body) := do
  let tableKey ← (← j.member? "table_key").text?
  match ← Operation.ofName? (← (← j.member? "op_code").text?) with
  | .select =>
    let s ← Selection.ofJson? (← j.member? "select")
    some (tableKey, .select s)
  | .join =>
    let rows ← (← (← (← j.member? "join").member? "rows").items?).mapM Row.ofJson?
    some (tableKey, .join rows)

def Body.Fits : Body → Prop
  | select s => s.limit ≤ Text.maxNumeral
  | join _ => True

theorem Query.ofJson?_toJson {q : Query} (h : q.body.Fits) :
    Query.ofJson? q.toJson = some (q.tableKey, q.body) := by
  obtain ⟨tableKey, body, draft⟩ := q
  cases body with
  | select s =>
    simp [Query.ofJson?, Query.toJson, Json.member?, List.lookup_cons, Json.text?,
      Selection.ofJson?_toJson h]
  | join rows =>
    have hrows : (rows.map Row.toJson).mapM Row.ofJson? = some rows :=
      mapM_map_eq_some Row.ofJson?_toJson rows
    simp [Query.ofJson?, Query.toJson, Json.member?, List.lookup_cons, Json.text?, Json.items?,
      hrows]

namespace Draft
variable {d : Draft} {q : Query}

theorem le_of_compileLimit {n : Nat} (h : d.compileLimit = .ok n) : n ≤ Text.maxNumeral := by
  unfold compileLimit at h
  split at h
  · cases h
    exact Nat.zero_le _
  · split at h
    case h_1 m hread =>
      cases h
      exact Text.le_of_readNumeral hread
    case h_2 => cases h

theorem limit_le_of_compileSelection {s : Selection} (h : d.compileSelection = .ok s) :
    s.limit ≤ Text.maxNumeral := by
  unfold compileSelection at h
  cases hlimit : d.compileLimit with
  | error e =>
    rw [hlimit] at h
    cases h
  | ok n =>
    rw [hlimit] at h
    cases hcondition : d.compileCondition with
    | error e =>
      rw [hcondition] at h
      cases h
    | ok c =>
      rw [hcondition] at h
      cases h
      exact le_of_compileLimit hlimit

theorem fits_of_compile (h : d.compile = .ok q) : q.body.Fits := by
  unfold compile at h
  split at h
  · cases h
  · cases h
    exact trivial
  · split at h
    case h_1 s hs =>
      cases h
      exact limit_le_of_compileSelection hs
    case h_2 => cases h

end Draft

section Ordered
open Json

theorem Json.ordered_strings (texts : List String) : (strings texts).Ordered := by
  simp [strings, ordered_arr]

theorem Predicate.ordered_toJson (p : Predicate) : p.toJson.Ordered := by
  have hnames : ["include_row_key", "keys", "literals", "op_code"].Pairwise (· < ·) := by decide
  refine ordered_obj.2 ⟨hnames, ?_⟩
  simp [ordered_strings]

theorem Row.ordered_toJson (r : Row) : r.toJson.Ordered := by
  have hentries : (obj (r.entries.toList.map fun e => (e.1, strings e.2))).Ordered := by
    rw [ordered_obj, Increasing, List.map_map, List.pairwise_map]
    refine ⟨r.entries.sorted, ?_⟩
    intro m hm
    obtain ⟨e, -, rfl⟩ := List.mem_map.1 hm
    exact ordered_strings e.2
  have hnames : ["entries", "key"].Pairwise (· < ·) := by decide
  refine ordered_obj.2 ⟨hnames, ?_⟩
  simp [hentries]

namespace Condition

mutual
theorem ordered_toJson : (c : Condition) → c.toJson.Ordered
  | group c parts => by
    have hnames : ["clauses", "op_code"].Pairwise (· < ·) := by decide
    have hparts : (arr (toJsonAll parts)).Ordered := ordered_toJsonAll parts
    refine ordered_obj.2 ⟨hnames, ?_⟩
    simp [hparts]
  | predicate p => by
    have hnames : ["op_code", "predicate"].Pairwise (· < ·) := by decide
    refine ordered_obj.2 ⟨hnames, ?_⟩
    simp [p.ordered_toJson]

theorem ordered_toJsonAll : (cs : List Condition) → OrderedItems (toJsonAll cs)
  | [] => trivial
  | c :: cs => ⟨ordered_toJson c, ordered_toJsonAll cs⟩
end

end Condition

theorem Selection.ordered_toJson (s : Selection) : s.toJson.Ordered := by
  obtain ⟨limit, condition⟩ := s
  cases condition with
  | none => exact ordered_obj.2 ⟨List.pairwise_singleton .., by simp⟩
  | some c =>
    have hnames : ["limit", "where"].Pairwise (· < ·) := by decide
    refine ordered_obj.2 ⟨hnames, ?_⟩
    simp [c.ordered_toJson]

/-- The members of every object in the JSON value of a query stand by increasing name. -/
theorem Query.ordered_toJson (q : Query) : q.toJson.Ordered := by
  obtain ⟨tableKey, body, draft⟩ := q
  cases body with
  | select s =>
    have hnames : ["op_code", "select", "table_key"].Pairwise (· < ·) := by decide
    refine ordered_obj.2 ⟨hnames, ?_⟩
    simp [s.ordered_toJson]
  | join rows =>
    have hrows : (obj [("rows", arr (rows.map Row.toJson))]).Ordered := by
      refine ordered_obj.2 ⟨List.pairwise_singleton .., ?_⟩
      simp [ordered_arr, Row.ordered_toJson]
    have hnames : ["join", "op_code", "table_key"].Pairwise (· < ·) := by decide
    refine ordered_obj.2 ⟨hnames, ?_⟩
    simp [hrows]

end Ordered

/-- Nothing that a query does is lost in its JSON value: the table and what is done with it can be
read back from the value of every compiled query. So two compiled queries have the same value
exactly when they have the same operation, the same table and the same body, whatever drafts they
were compiled from. -/
theorem json_loses_nothing (d d' : Draft) (q q' : Query) (hq : d.compile = .ok q)
    (hq' : d'.compile = .ok q') :
    Query.ofJson? q.toJson = some (q.tableKey, q.body) ∧
      (q.toJson.Same q'.toJson ↔
        q.operation = q'.operation ∧ q.tableKey = q'.tableKey ∧ q.body = q'.body) := by
  have hread := Query.ofJson?_toJson (Draft.fits_of_compile hq)
  have hread' := Query.ofJson?_toJson (Draft.fits_of_compile hq')
  rw [Json.same_iff_eq q.ordered_toJson q'.ordered_toJson]
  refine ⟨hread, ?_, ?_⟩
  · intro h
    rw [h, hread', Option.some.injEq, Prod.mk.injEq] at hread
    exact ⟨by rw [Query.operation, Query.operation, hread.2], hread.1.symm, hread.2.symm⟩
  · rintro ⟨-, hkey, hbody⟩
    rw [Query.toJson, Query.toJson, hkey, hbody]

def Draft.cluttered : Draft where
  command := "select"
  tableKey := "t"
  limit := "007"
  root := some 0
  clauses := #[{ command := "and", children := [1] },
    { command := "predicate", children := [2],
      predicate := some { command := "str_neq", literals := ["x"], usesRowKey := true } }, {}]
  path := [2, 1, 0]

def Draft.plain : Draft where
  command := "select"
  tableKey := "t"
  limit := "+7"
  root := some 0
  clauses := #[{ command := "and", children := [1] },
    { command := "predicate",
      predicate := some { command := "str_neq", literals := ["x"], usesRowKey := true } }]
  path := [0]

theorem json_loses_nothing_cluttered :
    Draft.applyAll {} [.chooseSelect, .nameTable "t", .setLimit "007", .openRoot, .enterClause,
        .becomePredicate, .nameComparison "str_neq", .addLiteral "x", .useRowKey, .enterClause] =
      .ok Draft.cluttered ∧
    ∃ q q' : Query, Draft.cluttered.compile = .ok q ∧ Draft.plain.compile = .ok q' ∧
      q.toJson.Same q'.toJson ∧
      Query.ofJson? q.toJson =
        some ("t", .select ⟨7, some (.predicate ⟨.notEqual, [], ["x"], true⟩)⟩) := by
  have hq : Draft.cluttered.compile =
      .ok ⟨"t", .select ⟨7, some (.predicate ⟨.notEqual, [], ["x"], true⟩)⟩, .cluttered⟩ := by
    decide
  have hq' : Draft.plain.compile =
      .ok ⟨"t", .select ⟨7, some (.predicate ⟨.notEqual, [], ["x"], true⟩)⟩, .plain⟩ := by
    decide
  have h := json_loses_nothing _ _ _ _ hq hq'
  exact ⟨by decide, _, _, hq, hq', h.2.2 ⟨rfl, rfl, rfl⟩, h.1⟩

end TableLang
