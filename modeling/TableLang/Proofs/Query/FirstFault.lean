import TableLang.Proofs.Query.Walk
import TableLang.Proofs.Text.Numeral

/-! What compiling says of a draft that is no query. The clauses are gone through in the order of
the text, each before the clauses in it, and the first one that means nothing is reported with the
way to it. Main statement: this is how compiling ends, for every draft that can be built. -/
namespace TableLang

namespace ClauseDraft

def isSupported (c : ClauseDraft) : Bool :=
  c.command = "and" || c.command = "or" ||
    c.command = "predicate" &&
      c.predicate.any fun p => p.command = "str_eq" || p.command = "str_neq"

def fault (c : ClauseDraft) : CompileError :=
  if c.command = "predicate" then
    match c.predicate with
    | some p => .inPredicate (.unsupportedComparison p.command)
    | none => .unsupportedClause c.command
  else .unsupportedClause c.command

end ClauseDraft

/-- A clause that is met when clauses are gone through. The way to it names the clauses around it,
from the outermost on, each with the position of the clause that leads on. -/
structure Met where
  way : List (String × Nat)
  clause : ClauseDraft

def Met.within (command : String) (position : Nat) (m : Met) : Met :=
  ⟨(command, position) :: m.way, m.clause⟩

namespace Tree

mutual
def met : Tree (Nat × ClauseDraft) → List Met
  | node (_, c) ts => ⟨[], c⟩ :: if c.command = "predicate" then [] else metAll c.command 0 ts

def metAll (command : String) (position : Nat) : List (Tree (Nat × ClauseDraft)) → List Met
  | [] => []
  | t :: ts => (met t).map (.within command position) ++ metAll command (position + 1) ts
end

mutual
inductive Mirrors : Tree (Nat × ClauseDraft) → Condition → Prop where
  | group {id : Nat} {c : ClauseDraft} {ts : List (Tree (Nat × ClauseDraft))}
    {connective : Connective} {parts : List Condition} (command : c.command = connective.name)
    (all : MirrorsAll ts parts) : Mirrors (.node (id, c) ts) (.group connective parts)
  | predicate {id : Nat} {c : ClauseDraft} {ts : List (Tree (Nat × ClauseDraft))}
    {p : PredicateDraft} {comparison : Comparison} (command : c.command = "predicate")
    (predicate : c.predicate = some p) (name : p.command = comparison.name) :
    Mirrors (.node (id, c) ts) (.predicate ⟨comparison, p.keys, p.literals, p.usesRowKey⟩)

inductive MirrorsAll : List (Tree (Nat × ClauseDraft)) → List Condition → Prop where
  | nil : MirrorsAll [] []
  | cons {t : Tree (Nat × ClauseDraft)} {ts : List (Tree (Nat × ClauseDraft))} {c : Condition}
    {cs : List Condition} (first : Mirrors t c) (later : MirrorsAll ts cs) :
    MirrorsAll (t :: ts) (c :: cs)
end

def firstFault? (ms : List Met) : Option Met := ms.find? fun m => !m.clause.isSupported

end Tree

def CompileError.along : List (Connective × Nat) → CompileError → CompileError
  | [], cause => cause
  | (connective, position) :: way, cause =>
    .inGroup connective (.inChild position (along way cause))

def wayOf (groups : List (Connective × Nat)) : List (String × Nat) :=
  groups.map fun g => (g.1.name, g.2)

theorem ClauseKind.ofName?_eq_some_iff {word : String} {kind : ClauseKind} :
    ofName? word = some kind ↔ word = kind.name := by
  constructor
  · intro h
    have hname := List.find?_some h
    simpa [eq_comm] using hname
  · rintro rfl
    obtain (_ | _) | _ := kind <;> rfl

theorem Comparison.ofName?_eq_some_iff {word : String} {comparison : Comparison} :
    ofName? word = some comparison ↔ word = comparison.name := by
  constructor
  · intro h
    have hname := List.find?_some h
    simpa [eq_comm] using hname
  · rintro rfl
    cases comparison <;> rfl

namespace ClauseDraft

inductive View (c : ClauseDraft) : Prop where
  | group (connective : Connective) (command : c.command = connective.name)
  | predicate (p : PredicateDraft) (comparison : Comparison) (command : c.command = "predicate")
    (predicate : c.predicate = some p) (name : p.command = comparison.name)
  | unsupported (h : c.isSupported = false)

theorem view (c : ClauseDraft) : c.View := by
  cases h : c.isSupported with
  | false => exact .unsupported h
  | true =>
    simp only [isSupported, Bool.or_eq_true, Bool.and_eq_true, decide_eq_true_eq,
      Option.any_eq_true] at h
    obtain (hand | hor) | ⟨hpredicate, p, hp, heq | hneq⟩ := h
    · exact .group .and hand
    · exact .group .or hor
    · exact .predicate p .equal hpredicate hp heq
    · exact .predicate p .notEqual hpredicate hp hneq

theorem isSupported_of_group {c : ClauseDraft} {connective : Connective}
    (h : c.command = connective.name) : c.isSupported = true := by
  cases connective <;> simp [isSupported, h, Connective.name]

theorem isSupported_of_predicate {c : ClauseDraft} {p : PredicateDraft} {comparison : Comparison}
    (hcommand : c.command = "predicate") (hp : c.predicate = some p)
    (hname : p.command = comparison.name) : c.isSupported = true := by
  cases comparison <;> simp [isSupported, hcommand, hp, hname, Comparison.name]

end ClauseDraft

namespace Condition
variable {id : Nat} {c : ClauseDraft} {ts : List (Tree (Nat × ClauseDraft))}

theorem ofTree_group {connective : Connective} (h : c.command = connective.name) :
    ofTree (.node (id, c) ts) =
      ((ofForest 0 ts).map (.group connective)).mapError (.inGroup connective) := by
  have hkind : ClauseKind.ofName? c.command = some (.group connective) :=
    ClauseKind.ofName?_eq_some_iff.2 h
  rw [ofTree, hkind]
  cases ofForest 0 ts <;> rfl

theorem ofTree_predicate {p : PredicateDraft} {comparison : Comparison}
    (hcommand : c.command = "predicate") (hp : c.predicate = some p)
    (hname : p.command = comparison.name) :
    ofTree (.node (id, c) ts) =
      .ok (.predicate ⟨comparison, p.keys, p.literals, p.usesRowKey⟩) := by
  have hkind : ClauseKind.ofName? c.command = some .predicate :=
    ClauseKind.ofName?_eq_some_iff.2 hcommand
  have hcomparison := Comparison.ofName?_eq_some_iff.2 hname
  simp only [ofTree, hkind, hp, PredicateDraft.compile, hcomparison]

theorem ofTree_unsupported (h : c.isSupported = false) :
    ofTree (.node (id, c) ts) = .error c.fault := by
  cases hkind : ClauseKind.ofName? c.command with
  | none =>
    have hne : c.command ≠ "predicate" := by
      intro hcommand
      rw [hcommand] at hkind
      cases hkind
    simp only [ofTree, hkind, ClauseDraft.fault, hne, if_false]
  | some kind =>
    have hcommand := ClauseKind.ofName?_eq_some_iff.1 hkind
    cases kind with
    | group connective =>
      rw [ClauseDraft.isSupported_of_group hcommand] at h
      cases h
    | predicate =>
      change c.command = "predicate" at hcommand
      cases hp : c.predicate with
      | none =>
        have hfault : c.fault = .unsupportedClause c.command := by
          simp [ClauseDraft.fault, hcommand, hp]
        simp only [ofTree, hkind, hp, hfault]
      | some p =>
        cases hname : Comparison.ofName? p.command with
        | some comparison =>
          rw [ClauseDraft.isSupported_of_predicate hcommand hp
            (Comparison.ofName?_eq_some_iff.1 hname)] at h
          cases h
        | none =>
          have hfault : c.fault = .inPredicate (.unsupportedComparison p.command) := by
            simp [ClauseDraft.fault, hcommand, hp]
          simp only [ofTree, hkind, hp, PredicateDraft.compile, hname, hfault]

end Condition

namespace Tree

@[simp]
theorem firstFault?_append (ms ns : List Met) :
    firstFault? (ms ++ ns) = (firstFault? ms).or (firstFault? ns) :=
  List.find?_append

/-- The first fault within a clause is the first fault of the clause itself. -/
theorem firstFault?_within (command : String) (position : Nat) (ms : List Met) :
    firstFault? (ms.map (.within command position)) =
      (firstFault? ms).map (.within command position) :=
  List.find?_map ..

theorem met_group {id : Nat} {c : ClauseDraft} {ts : List (Tree (Nat × ClauseDraft))}
    {connective : Connective} (h : c.command = connective.name) :
    (node (id, c) ts).met = ⟨[], c⟩ :: metAll connective.name 0 ts := by
  have hne : c.command ≠ "predicate" := by
    rw [h]
    cases connective <;> decide
  rw [met, if_neg hne, h]

/-- In a group the first fault is a fault in one of its clauses. -/
theorem firstFault?_group {id : Nat} {c : ClauseDraft} {ts : List (Tree (Nat × ClauseDraft))}
    {connective : Connective} (h : c.command = connective.name) :
    firstFault? (node (id, c) ts).met = firstFault? (metAll connective.name 0 ts) := by
  rw [met_group h, firstFault?, List.find?_cons, ClauseDraft.isSupported_of_group h]
  rfl

theorem firstFault?_predicate {id : Nat} {c : ClauseDraft} {ts : List (Tree (Nat × ClauseDraft))}
    (hcommand : c.command = "predicate") (h : c.isSupported = true) :
    firstFault? (node (id, c) ts).met = none := by
  simp [met, firstFault?, hcommand, h]

theorem firstFault?_unsupported {id : Nat} {c : ClauseDraft}
    {ts : List (Tree (Nat × ClauseDraft))} (h : c.isSupported = false) :
    firstFault? (node (id, c) ts).met = some ⟨[], c⟩ := by
  simp [met, firstFault?, h]

mutual
/-- Without a fault, clauses are compiled to a condition that repeats what they say. -/
theorem ofTree_of_faultless : (t : Tree (Nat × ClauseDraft)) → firstFault? t.met = none →
    ∃ condition, Condition.ofTree t = .ok condition ∧ t.Mirrors condition
  | .node (id, c) ts, h => by
    cases c.view with
    | group connective hcommand =>
      rw [firstFault?_group hcommand] at h
      obtain ⟨parts, hparts, hmirrors⟩ := ofForest_of_faultless connective ts 0 h
      refine ⟨.group connective parts, ?_, .group hcommand hmirrors⟩
      rw [Condition.ofTree_group hcommand, hparts]
      rfl
    | predicate p comparison hcommand hp hname =>
      exact ⟨_, Condition.ofTree_predicate hcommand hp hname, .predicate hcommand hp hname⟩
    | unsupported hc =>
      rw [firstFault?_unsupported hc] at h
      cases h

theorem ofForest_of_faultless (connective : Connective) :
    (ts : List (Tree (Nat × ClauseDraft))) → (index : Nat) →
    firstFault? (metAll connective.name index ts) = none →
    ∃ parts, Condition.ofForest index ts = .ok parts ∧ MirrorsAll ts parts
  | [], index, _ => ⟨[], rfl, .nil⟩
  | t :: ts, index, h => by
    rw [metAll, firstFault?_append, firstFault?_within, Option.or_eq_none_iff,
      Option.map_eq_none_iff] at h
    obtain ⟨condition, hcondition, hfirst⟩ := ofTree_of_faultless t h.1
    obtain ⟨parts, hparts, hlater⟩ := ofForest_of_faultless connective ts (index + 1) h.2
    refine ⟨condition :: parts, ?_, .cons hfirst hlater⟩
    simp only [Condition.ofForest, hcondition, hparts]
end

mutual
/-- With a fault, what is reported is the first one, at the end of the way to it. -/
theorem ofTree_of_fault : (t : Tree (Nat × ClauseDraft)) → (m : Met) →
    firstFault? t.met = some m → ∃ groups, m.way = wayOf groups ∧
      Condition.ofTree t = .error (.along groups m.clause.fault)
  | .node (id, c) ts, m, h => by
    cases c.view with
    | group connective hcommand =>
      rw [firstFault?_group hcommand] at h
      obtain ⟨position, groups, hway, hparts⟩ := ofForest_of_fault connective ts 0 m h
      refine ⟨(connective, position) :: groups, hway, ?_⟩
      rw [Condition.ofTree_group hcommand, hparts]
      rfl
    | predicate p comparison hcommand hp hname =>
      have hsupported := ClauseDraft.isSupported_of_predicate hcommand hp hname
      rw [firstFault?_predicate hcommand hsupported] at h
      cases h
    | unsupported hc =>
      rw [firstFault?_unsupported hc] at h
      cases h
      exact ⟨[], rfl, Condition.ofTree_unsupported hc⟩

theorem ofForest_of_fault (connective : Connective) :
    (ts : List (Tree (Nat × ClauseDraft))) → (index : Nat) → (m : Met) →
    firstFault? (metAll connective.name index ts) = some m →
    ∃ position groups, m.way = wayOf ((connective, position) :: groups) ∧
      Condition.ofForest index ts = .error (.inChild position (.along groups m.clause.fault))
  | [], index, m, h => by
    cases h
  | t :: ts, index, m, h => by
    rw [metAll, firstFault?_append, firstFault?_within] at h
    cases hfirst : firstFault? t.met with
    | some n =>
      rw [hfirst] at h
      cases h
      obtain ⟨groups, hway, hof⟩ := ofTree_of_fault t n hfirst
      refine ⟨index, groups, ?_, ?_⟩
      · rw [Met.within, hway]
        rfl
      · simp only [Condition.ofForest, hof]
        rfl
    | none =>
      rw [hfirst] at h
      -- The clauses before the faulty one are all compiled, so that the next clause is reached.
      obtain ⟨condition, hcondition, -⟩ := ofTree_of_faultless t hfirst
      obtain ⟨position, groups, hway, hof⟩ := ofForest_of_fault connective ts (index + 1) m h
      refine ⟨position, groups, hway, ?_⟩
      simp only [Condition.ofForest, hcondition, hof]
end

end Tree

def ClauseDraft.Proper (c : ClauseDraft) : Prop :=
  c.command = "" ∨ c.command = "and" ∨ c.command = "or" ∨
    c.command = "predicate" ∧ ∃ p, c.predicate = some p

namespace ClauseDraft

theorem Proper.change {c c' : ClauseDraft} (h : c.Proper) (hchange : c.Change c') : c'.Proper := by
  cases hchange with
  | predicate => exact .inr (.inr (.inr ⟨rfl, {}, rfl⟩))
  | group connective =>
    cases connective with
    | and => exact .inr (.inl rfl)
    | or => exact .inr (.inr (.inl rfl))
  | comparison hp p' =>
    obtain hnone | hand | hor | ⟨hpredicate, -⟩ := h
    · exact .inl hnone
    · exact .inr (.inl hand)
    · exact .inr (.inr (.inl hor))
    · exact .inr (.inr (.inr ⟨hpredicate, p', rfl⟩))

/-- What can be wrong with a clause made by edits: nothing was said about it, or it is a comparison
and the name of the comparison means nothing. -/
theorem Proper.fault_eq {c : ClauseDraft} (h : c.Proper) (hfault : c.isSupported = false) :
    c.command = "" ∧ c.fault = .unsupportedClause "" ∨
      ∃ p, c.command = "predicate" ∧ c.predicate = some p ∧ p.command ≠ "str_eq" ∧
        p.command ≠ "str_neq" ∧ c.fault = .inPredicate (.unsupportedComparison p.command) := by
  obtain hnone | hand | hor | ⟨hpredicate, p, hp⟩ := h
  · refine .inl ⟨hnone, ?_⟩
    simp [fault, hnone]
  · simp [isSupported, hand] at hfault
  · simp [isSupported, hor] at hfault
  · have hname : p.command ≠ "str_eq" ∧ p.command ≠ "str_neq" := by
      simpa [isSupported, hpredicate, hp] using hfault
    refine .inr ⟨p, hpredicate, hp, hname.1, hname.2, ?_⟩
    simp [fault, hpredicate, hp]

end ClauseDraft

namespace Draft

theorem Step.proper {d e : Draft} (h : d.Step e)
    (hd : ∀ (id : Nat) (c : ClauseDraft), d.clauses[id]? = some c → c.Proper) (id : Nat)
    (c : ClauseDraft) (hc : e.clauses[id]? = some c) : c.Proper := by
  cases h with
  | heading => exact hd id c hc
  | openRoot =>
    simp only [opened, Array.getElem?_push] at hc
    split at hc
    · cases hc
      exact .inr (.inl rfl)
    · exact hd id c hc
  | enterClause hpath hclause =>
    rw [getElem?_entered hclause] at hc
    split at hc
    · cases hc
      exact .inl rfl
    · split at hc
      · cases hc
        have hproper := hd _ _ hclause
        exact hproper
      · exact hd id c hc
  | leaveClause => exact hd id c hc
  | change hpath hclause hchanged =>
    rw [getElem?_replaced hclause] at hc
    split at hc
    · cases hc
      exact (hd _ _ hclause).change hchanged
    · exact hd id c hc

theorem Built.proper {d : Draft} (h : d.Built) :
    ∀ (id : Nat) (c : ClauseDraft), d.clauses[id]? = some c → c.Proper := by
  refine h.induction (fun id c hc => ?_) Step.proper
  simp at hc

mutual
/-- The clauses that are met are clauses of the draft. -/
theorem Holds.exists_of_mem_met {d : Draft} : {t : Tree (Nat × ClauseDraft)} → d.Holds t →
    ∀ m ∈ t.met, ∃ id : Nat, d.clauses[id]? = some m.clause
  | .node (id, c) ts, ⟨hclause, hchildren, hts⟩, m, hm => by
    rw [Tree.met] at hm
    obtain rfl | hm := List.mem_cons.1 hm
    · exact ⟨id, hclause⟩
    · split at hm
      · cases hm
      · exact HoldsAll.exists_of_mem_metAll hts _ _ m hm

theorem HoldsAll.exists_of_mem_metAll {d : Draft} : {ts : List (Tree (Nat × ClauseDraft))} →
    d.HoldsAll ts → ∀ (command : String) (position : Nat), ∀ m ∈ Tree.metAll command position ts,
    ∃ id : Nat, d.clauses[id]? = some m.clause
  | [], _, command, position, m, hm => by
    cases hm
  | t :: ts, ⟨ht, hts⟩, command, position, m, hm => by
    rw [Tree.metAll] at hm
    obtain hm | hm := List.mem_append.1 hm
    · obtain ⟨n, hn, rfl⟩ := List.mem_map.1 hm
      exact Holds.exists_of_mem_met ht n hn
    · exact HoldsAll.exists_of_mem_metAll hts command (position + 1) m hm
end

/-- The limit of a draft is the number `n`, which fits into 64 bits: its text denotes this number,
or it is empty and the number is 0. -/
def LimitIs (d : Draft) (n : Nat) : Prop :=
  d.limit = "" ∧ n = 0 ∨ Text.Denotes d.limit.toList n ∧ n < 2 ^ 64

structure Reports (d : Draft) (limit : Nat) (t : Tree (Nat × ClauseDraft)) : Prop where
  ok_iff : (∃ q, d.compile = .ok q) ↔ ∀ m ∈ t.start.met, m.clause.isSupported = true
  mirrors : ∀ q, d.compile = .ok q → ∃ condition, t.start.Mirrors condition ∧
    q = ⟨d.tableKey, .select ⟨limit, some condition⟩, d⟩
  fault : ∀ m, Tree.firstFault? t.start.met = some m → ∃ groups, m.way = wayOf groups ∧
    d.compile = .error (.inSelect (.inWhere (.along groups m.clause.fault))) ∧
    (m.clause.command = "" ∧ m.clause.fault = .unsupportedClause "" ∨
      ∃ p, m.clause.command = "predicate" ∧ m.clause.predicate = some p ∧
        p.command ≠ "str_eq" ∧ p.command ≠ "str_neq" ∧
        m.clause.fault = .inPredicate (.unsupportedComparison p.command))

section Select
variable {d : Draft}

theorem compile_of_select (h : d.command = "select") :
    d.compile =
      (d.compileSelection.map fun s => ⟨d.tableKey, .select s, d⟩).mapError .inSelect := by
  have hoperation : Operation.ofName? d.command = some .select := by
    rw [h]
    rfl
  simp only [compile, hoperation]
  cases d.compileSelection <;> rfl

theorem LimitIs.compileLimit_eq {n : Nat} (h : d.LimitIs n) : d.compileLimit = .ok n := by
  obtain ⟨hempty, rfl⟩ | ⟨hdenotes, hfits⟩ := h
  · simp [compileLimit, hempty]
  · have hne : d.limit ≠ "" := by
      intro hempty
      rw [hempty] at hdenotes
      exact Text.ne_nil_of_denotes hdenotes rfl
    simp [compileLimit, hne, Text.readNumeral_of_denotes hdenotes hfits]

theorem LimitIs.compile_eq {n : Nat} (h : d.LimitIs n) (hcommand : d.command = "select") :
    d.compile = (d.compileCondition.map fun c => ⟨d.tableKey, .select ⟨n, c⟩, d⟩).mapError
      .inSelect := by
  rw [compile_of_select hcommand, compileSelection, h.compileLimit_eq]
  cases d.compileCondition <;> rfl

/-- A limit that is no number of 64 bits is refused before any clause is looked at: as too large if
the digits it begins with, after a plus sign or none, make a number that does not fit, and for an
invalid digit if not. -/
theorem compile_of_badLimit (hselect : d.command = "select") (hne : d.limit ≠ "")
    (hlarge : ∀ n, Text.Denotes d.limit.toList n → 2 ^ 64 ≤ n) :
    d.compile = .error (.inSelect (.badLimit d.limit
      (if 2 ^ 64 ≤ Text.decimalValue ((Text.unsigned d.limit.toList).takeWhile Char.isDigit) then
        .tooLarge
      else .invalidDigit))) := by
  have hnil : d.limit.toList ≠ [] := by
    intro hnil
    exact hne (String.toList_eq_nil_iff.1 hnil)
  have hread := Text.readNumeral_of_not_denotes hnil hlarge
  rw [compile_of_select hselect, compileSelection, compileLimit, if_neg hne, hread]
  rfl

theorem Built.reports (h : d.Built) (hcommand : d.command = "select") {n : Nat}
    (hlimit : d.LimitIs n) {t : Tree (Nat × ClauseDraft)} (ht : d.Holds t)
    (hroot : d.root = some t.index) : d.Reports n t := by
  have hcompile := hlimit.compile_eq hcommand
  have hcondition : d.compileCondition =
      ((Condition.ofTree t.start).map some).mapError .inWhere := by
    simp only [compileCondition, hroot, h.sound.clauseTree?_eq ht, Condition.ofRoot_eq]
    cases Condition.ofTree t.start <;> rfl
  rw [hcondition] at hcompile
  cases hfault : Tree.firstFault? t.start.met with
  | none =>
    obtain ⟨condition, hof, hmirrors⟩ := Tree.ofTree_of_faultless t.start hfault
    rw [hof] at hcompile
    have hall : ∀ m ∈ t.start.met, m.clause.isSupported = true := by
      simpa [Tree.firstFault?] using hfault
    refine ⟨iff_of_true ⟨_, hcompile⟩ hall, fun q hq => ⟨condition, hmirrors, ?_⟩, ?_⟩
    · exact Except.ok.inj (hq.symm.trans hcompile)
    · intro m hm
      cases hfault.symm.trans hm
  | some m =>
    obtain ⟨groups, hway, hof⟩ := Tree.ofTree_of_fault t.start m hfault
    rw [hof] at hcompile
    have hmem := List.mem_of_find?_eq_some hfault
    have hbad : m.clause.isSupported = false := by simpa using List.find?_some hfault
    have hnot (q : Query) : d.compile ≠ .ok q := by
      intro hq
      cases hcompile.symm.trans hq
    refine ⟨iff_of_false (not_exists.2 hnot) fun hall => ?_,
      fun q hq => absurd hq (hnot q), ?_⟩
    · rw [hall m hmem] at hbad
      cases hbad
    · intro n hn
      cases hfault.symm.trans hn
      obtain ⟨id, hclause⟩ := ht.start.1.exists_of_mem_met m hmem
      exact ⟨groups, hway, hcompile, (h.proper id m.clause hclause).fault_eq hbad⟩

end Select

theorem compile_eq_unknownCommand_iff {d : Draft} {word : String} :
    d.compile = .error (.unknownCommand word) ↔
      d.command ≠ "select" ∧ d.command ≠ "join" ∧ word = d.command := by
  by_cases hselect : d.command = "select"
  · rw [compile_of_select hselect]
    refine iff_of_false ?_ fun h => h.1 hselect
    cases d.compileSelection <;> exact nofun
  · by_cases hjoin : d.command = "join"
    · have hoperation : Operation.ofName? d.command = some .join := by
        rw [hjoin]
        rfl
      simp only [compile, hoperation]
      exact iff_of_false nofun fun h => h.2.1 hjoin
    · have hoperation : Operation.ofName? d.command = none := by
        simp [Operation.ofName?, Operation.name, Ne.symm hselect, Ne.symm hjoin]
      simp [compile, hoperation, hselect, hjoin, eq_comm]

end Draft

/-- How compiling ends, for every draft that can be built. A command that means nothing is reported
as such, a join is always compiled, and a limit that denotes no number of 64 bits is reported before
any clause is looked at. Otherwise the clauses are met in order, from the only clause of the root or
from the root itself, and the draft is compiled exactly if all of them mean something; the first
that does not is reported, with the groups and positions on the way to it. -/
theorem compile_reports_first_fault (d : Draft) (h : d.Built) :
    (∀ word, d.compile = .error (.unknownCommand word) ↔
      d.command ≠ "select" ∧ d.command ≠ "join" ∧ word = d.command) ∧
      (d.command = "join" → d.compile = .ok ⟨d.tableKey, .join d.rows, d⟩) ∧
      (d.command = "select" → d.limit ≠ "" →
        (∀ n, Text.Denotes d.limit.toList n → 2 ^ 64 ≤ n) →
        d.compile = .error (.inSelect (.badLimit d.limit
          (if 2 ^ 64 ≤
              Text.decimalValue ((Text.unsigned d.limit.toList).takeWhile Char.isDigit) then
            .tooLarge
          else .invalidDigit)))) ∧
      ∀ limit, d.command = "select" → d.LimitIs limit →
        (d.root = none → d.compile = .ok ⟨d.tableKey, .select ⟨limit, none⟩, d⟩) ∧
          ∀ root, d.root = some root → ∃ t, d.Holds t ∧ t.index = root ∧ d.Reports limit t := by
  refine ⟨fun word => Draft.compile_eq_unknownCommand_iff, fun hjoin => ?_,
    Draft.compile_of_badLimit,
    fun limit hselect hlimit => ⟨fun hroot => ?_, fun root hroot => ?_⟩⟩
  · have hoperation : Operation.ofName? d.command = some .join := by
      rw [hjoin]
      rfl
    simp only [Draft.compile, hoperation]
  · have hcondition : d.compileCondition = .ok none := by simp only [Draft.compileCondition, hroot]
    rw [hlimit.compile_eq hselect, hcondition]
    rfl
  · obtain ⟨t, ht, rfl, -⟩ := h.sound.exists_clauseTree? hroot
    exact ⟨t, ht, rfl, h.reports hselect hlimit ht hroot⟩

def Draft.faulty : Draft where
  command := "select"
  limit := "+12"
  root := some 0
  clauses := #[{ command := "and", children := [1] }, { command := "or", children := [2, 3, 4] },
    { command := "predicate", predicate := some { command := "str_eq" } }, {},
    { command := "predicate", predicate := some {} }]
  path := [0]

theorem Draft.faulty_built : Draft.faulty.Built := by
  have h : Draft.applyAll {} [.chooseSelect, .setLimit "+12", .openRoot, .enterClause,
      .becomeGroup .or, .enterClause, .becomePredicate, .nameComparison "str_eq", .leaveClause,
      .enterClause, .leaveClause, .enterClause, .becomePredicate, .leaveClause, .leaveClause] =
    .ok Draft.faulty := by decide
  exact .applyAll .empty h

theorem compile_reports_first_fault_faulty :
    Draft.faulty.Built ∧ Draft.faulty.LimitIs 12 ∧ Draft.faulty.compile =
        .error (.inSelect (.inWhere (.inGroup .or (.inChild 1 (.unsupportedClause ""))))) ∧
      ∃ t, Draft.faulty.Holds t ∧ t.index = 0 ∧ Draft.faulty.Reports 12 t := by
  have hlimit : Draft.faulty.LimitIs 12 := by
    refine .inr ⟨⟨['+'], "12".toList, .inr rfl, rfl, by decide, ?_, by decide⟩, by decide⟩
    exact List.all_eq_true.1 (by decide)
  obtain ⟨t, ht, hindex, hreports⟩ :=
    ((compile_reports_first_fault _ Draft.faulty_built).2.2.2 12 rfl hlimit).2 0 rfl
  exact ⟨Draft.faulty_built, hlimit, by decide, t, ht, hindex, hreports⟩

end TableLang
