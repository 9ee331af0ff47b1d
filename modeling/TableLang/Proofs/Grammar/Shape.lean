import TableLang.Proofs.Grammar.Follows
import TableLang.Proofs.Grammar.Sentence

/-! Every derivation of a query is the derivation of a sentence. -/
namespace TableLang.Grammar
open Sentence
variable {depth : Nat} {ts : List Derivation}

theorem derives_seq {e f : Expr} (h : Derives depth (.seq e f) ts) :
    ∃ us vs, Derives depth e us ∧ Derives depth f vs ∧ ts = us ++ vs := by
  cases h with
  | seq first second => exact ⟨_, _, first, second, rfl⟩

theorem derives_alt {e f : Expr} (h : Derives depth (.alt e f) ts) :
    Derives depth e ts ∨ Derives depth f ts := by
  cases h with
  | altFirst h => exact .inl h
  | altSecond h => exact .inr h

theorem derives_opt {e : Expr} (h : Derives depth (.opt e) ts) : ts = [] ∨ Derives depth e ts := by
  cases h with
  | optNone => exact .inl rfl
  | optSome h => exact .inr h

theorem derives_named {p : Production} {e : Expr} (h : Derives depth (.named p e) ts) :
    ∃ us, Derives depth e us ∧ ts = [.node (.production p) us] := by
  cases h with
  | named h => exact ⟨_, h, rfl⟩

theorem derives_capture {e : Expr} (h : Derives depth (.capture e) ts) :
    ∃ us, Derives depth e us ∧ ts = [.node .text us] := by
  cases h with
  | capture h => exact ⟨_, h, rfl⟩

theorem derives_mark {a : Action} (h : Derives depth (.mark a) ts) :
    ts = [.node (.action a) []] := by
  cases h
  rfl

theorem derives_finish (h : Derives depth .finish ts) : ts = [] := by
  cases h
  rfl

theorem derives_one {accepts : Char → Bool} (h : Derives depth (.one accepts) ts) :
    ∃ c, accepts c = true ∧ ts = [.char c] := by
  cases h with
  | one hc => exact ⟨_, hc, rfl⟩

theorem derives_run {accepts : Char → Bool} (h : Derives depth (.run accepts) ts) :
    ∃ cs : List Char, (∀ c ∈ cs, accepts c = true) ∧ ts = cs.map .char := by
  cases h with
  | run hcs => exact ⟨_, hcs, rfl⟩

theorem derives_char {c : Char} (h : Derives depth (.char c) ts) : ts = [.char c] := by
  obtain ⟨d, hd, rfl⟩ := derives_one h
  rw [of_decide_eq_true hd]

theorem derives_word {text : String} (h : Derives depth (.word text) ts) :
    ts = text.toList.map .char := by
  rw [Expr.word] at h
  generalize text.toList = cs at h ⊢
  induction cs generalizing ts with
  | nil =>
    cases h
    rfl
  | cons c cs ih =>
    cases cs with
    | nil => exact derives_char h
    | cons d cs =>
      obtain ⟨us, vs, hu, hv, rfl⟩ := derives_seq h
      rw [derives_char hu, ih hv]
      rfl

theorem derives_spacing (h : Derives depth spacing ts) : ∃ b : Blanks, ts = [b.derivation] := by
  obtain ⟨us, hbody, rfl⟩ := derives_named h
  obtain ⟨cs, hcs, rfl⟩ := derives_run hbody
  exact ⟨⟨cs, hcs⟩, rfl⟩

theorem derives_requiredSpacing (h : Derives depth requiredSpacing ts) :
    ∃ g : Gap, ts = [g.derivation] := by
  obtain ⟨us, hbody, rfl⟩ := derives_named h
  obtain ⟨vs, ws, hone, hrun, rfl⟩ := derives_seq hbody
  obtain ⟨c, hc, rfl⟩ := derives_one hone
  obtain ⟨cs, hcs, rfl⟩ := derives_run hrun
  exact ⟨⟨c, cs, hc, hcs⟩, rfl⟩

theorem derives_keyPart (h : Derives depth keyPart ts) : ∃ p : KeyPart, ts = [p.derivation] := by
  cases h with
  | ifYes h =>
    obtain ⟨us, hbody, rfl⟩ := derives_named h
    obtain ⟨vs, ws, hback, hone, rfl⟩ := derives_seq hbody
    obtain ⟨c, hc, rfl⟩ := derives_one hone
    rw [derives_char hback]
    exact ⟨.escape c hc, rfl⟩
  | ifNo h =>
    obtain ⟨c, hc, rfl⟩ := derives_one h
    exact ⟨.plain c hc, rfl⟩

/-- Repetitions of an expression whose derivations have a shape are a row of that shape. -/
theorem derives_many_shape {α : Type} {shape : α → List Derivation} {ahead : List Char → Bool}
    {e : Expr} (hshape : ∀ us, Derives depth e us → ∃ a, us = shape a)
    (h : Derives depth (.many ahead e) ts) : ∃ as : List α, ts = as.flatMap shape := by
  obtain ⟨rows, rfl, hrows⟩ := derives_many_iff.1 h
  clear h
  induction rows with
  | nil => exact ⟨[], rfl⟩
  | cons us rows ih =>
    obtain ⟨a, rfl⟩ := hshape us (hrows us (List.mem_cons_self ..))
    obtain ⟨as, has⟩ := ih fun vs hvs => hrows vs (List.mem_cons_of_mem _ hvs)
    exact ⟨a :: as, by rw [List.flatten_cons, List.flatMap_cons, has]⟩

theorem derives_key (h : Derives depth key ts) : ∃ k : Key, ts = [k.derivation] := by
  obtain ⟨us, hbody, rfl⟩ := derives_named h
  obtain ⟨vs, ws, hfirst, hmore, rfl⟩ := derives_seq hbody
  obtain ⟨p, rfl⟩ := derives_keyPart hfirst
  obtain ⟨ps, rfl⟩ := derives_many_shape (fun _ => derives_keyPart) hmore
  exact ⟨⟨p, ps⟩, by rw [Key.derivation, List.map_eq_flatMap]; rfl⟩

theorem derives_positiveInteger (h : Derives depth positiveInteger ts) :
    ∃ n : Numeral, ts = [n.derivation] := by
  obtain ⟨us, hbody, rfl⟩ := derives_named h
  obtain ⟨vs, ws, hone, hrun, rfl⟩ := derives_seq hbody
  obtain ⟨c, hc, rfl⟩ := derives_one hone
  obtain ⟨cs, hcs, rfl⟩ := derives_run hrun
  exact ⟨⟨c, cs, hc, hcs⟩, rfl⟩

theorem derives_predicateLiteral (h : Derives depth predicateLiteral ts) :
    ∃ v : Value, ts = [v.inner] := by
  obtain ⟨us, hbody, rfl⟩ := derives_named h
  obtain ⟨vs, vs', hopen, h₁, rfl⟩ := derives_seq hbody
  obtain ⟨ws, ws', htext, h₂, rfl⟩ := derives_seq h₁
  obtain ⟨xs, xs', hclose, hmark, rfl⟩ := derives_seq h₂
  obtain ⟨ys, hrun, rfl⟩ := derives_capture htext
  obtain ⟨cs, hcs, rfl⟩ := derives_run hrun
  rw [derives_char hopen, derives_char hclose, derives_mark hmark]
  exact ⟨.literal cs (by simpa using hcs), rfl⟩

theorem derives_predicateRowKey (h : Derives depth predicateRowKey ts) :
    ∃ v : Value, ts = [v.inner] := by
  obtain ⟨us, hbody, rfl⟩ := derives_named h
  obtain ⟨vs, ws, hword, hmark, rfl⟩ := derives_seq hbody
  rw [derives_word hword, derives_mark hmark]
  exact ⟨.rowKey, rfl⟩

theorem derives_predicateKey (h : Derives depth predicateKey ts) :
    ∃ v : Value, ts = [v.inner] := by
  obtain ⟨us, hbody, rfl⟩ := derives_named h
  obtain ⟨vs, ws, htext, hmark, rfl⟩ := derives_seq hbody
  obtain ⟨ks, hkey, rfl⟩ := derives_capture htext
  obtain ⟨k, rfl⟩ := derives_key hkey
  rw [derives_mark hmark]
  exact ⟨.key k, rfl⟩

theorem derives_predicateValue (h : Derives depth predicateValue ts) :
    ∃ v : Value, ts = [v.derivation] := by
  obtain ⟨us, hbody, rfl⟩ := derives_named h
  have hinner : ∃ v : Value, us = [v.inner] := by
    obtain h | h := derives_alt hbody
    · exact derives_predicateLiteral h
    · obtain h | h := derives_alt h
      · exact derives_predicateRowKey h
      · exact derives_predicateKey h
  obtain ⟨v, rfl⟩ := hinner
  exact ⟨v, rfl⟩

theorem derives_laterValue
    (h : Derives depth (.seqAll [.char ',', spacing, predicateValue, spacing]) ts) :
    ∃ v : LaterValue, ts = v.derivations := by
  obtain ⟨us, us', hcomma, h₁, rfl⟩ := derives_seq h
  obtain ⟨vs, vs', hbefore, h₂, rfl⟩ := derives_seq h₁
  obtain ⟨ws, ws', hvalue, hafter, rfl⟩ := derives_seq h₂
  obtain ⟨before, rfl⟩ := derives_spacing hbefore
  obtain ⟨v, rfl⟩ := derives_predicateValue hvalue
  obtain ⟨after, rfl⟩ := derives_spacing hafter
  rw [derives_char hcomma]
  exact ⟨⟨before, v, after⟩, rfl⟩

theorem derives_predicateName (h : Derives depth predicateName ts) :
    ∃ name : Comparison, ts = [nameDerivation name] := by
  obtain ⟨us, hbody, rfl⟩ := derives_named h
  obtain ⟨vs, ws, htext, hmark, rfl⟩ := derives_seq hbody
  obtain ⟨cs, hword, rfl⟩ := derives_capture htext
  rw [derives_mark hmark]
  obtain hword | hword := derives_alt hword
  · rw [derives_word hword]
    exact ⟨.equal, rfl⟩
  · rw [derives_word hword]
    exact ⟨.notEqual, rfl⟩

structure Part (depth : Nat) where
  before : Blanks
  clause : Clause
  after : Blanks
  depth_le : clause.depth ≤ depth

def Part.derivations (p : Part depth) : List Derivation :=
  [p.before.derivation, p.clause.derivation, p.after.derivation]

/-- A first part and any number of later ones make up the clauses of a group. -/
theorem exists_parts (first : Part depth) (later : List (Part depth)) :
    ∃ ps : Parts, ps.depth ≤ depth ∧
      ps.derivations = first.derivations ++ later.flatMap fun p => .char ',' :: p.derivations := by
  induction later generalizing first with
  | nil => exact ⟨.last first.before first.clause first.after, first.depth_le, rfl⟩
  | cons next later ih =>
    obtain ⟨ps, hdepth, hps⟩ := ih next
    refine ⟨.more first.before first.clause first.after ps,
      Nat.max_le.2 ⟨first.depth_le, hdepth⟩, ?_⟩
    rw [Parts.derivations, hps]
    rfl

section Clauses
variable (hclause : ∀ ts, Derives depth .clause ts →
  ∃ c : Clause, ts = [c.derivation] ∧ c.depth ≤ depth)
include hclause

theorem derives_laterPart
    (h : Derives depth (.seqAll [.char ',', spacing, .clause, spacing]) ts) :
    ∃ p : Part depth, ts = .char ',' :: p.derivations := by
  obtain ⟨us, us', hcomma, h₁, rfl⟩ := derives_seq h
  obtain ⟨vs, vs', hbefore, h₂, rfl⟩ := derives_seq h₁
  obtain ⟨ws, ws', hc, hafter, rfl⟩ := derives_seq h₂
  obtain ⟨before, rfl⟩ := derives_spacing hbefore
  obtain ⟨c, rfl, hdepth⟩ := hclause _ hc
  obtain ⟨after, rfl⟩ := derives_spacing hafter
  rw [derives_char hcomma]
  exact ⟨⟨before, c, after, hdepth⟩, rfl⟩

theorem derives_groupClause {c : Connective} (h : Derives depth (groupClause c) ts) :
    ∃ (before : Blanks) (ps : Parts), ps.depth ≤ depth ∧
      ts = [.node (.production (.groupClause c))
        (c.name.toList.map .char ++
          ([.node (.action (.becomeGroup c)) [], before.derivation, .char '('] ++
            (ps.derivations ++ [.char ')'])))] := by
  obtain ⟨us, hbody, rfl⟩ := derives_named h
  obtain ⟨us₁, vs₁, hword, h₁, rfl⟩ := derives_seq hbody
  obtain ⟨us₂, vs₂, hmark, h₂, rfl⟩ := derives_seq h₁
  obtain ⟨us₃, vs₃, hbefore, h₃, rfl⟩ := derives_seq h₂
  obtain ⟨us₄, vs₄, hopen, h₄, rfl⟩ := derives_seq h₃
  obtain ⟨us₅, vs₅, hlead, h₅, rfl⟩ := derives_seq h₄
  obtain ⟨us₆, vs₆, hfirst, h₆, rfl⟩ := derives_seq h₅
  obtain ⟨us₇, vs₇, htrail, h₇, rfl⟩ := derives_seq h₆
  obtain ⟨us₈, vs₈, hlater, hclose, rfl⟩ := derives_seq h₇
  obtain ⟨before, rfl⟩ := derives_spacing hbefore
  obtain ⟨lead, rfl⟩ := derives_spacing hlead
  obtain ⟨first, rfl, hdepth⟩ := hclause _ hfirst
  obtain ⟨trail, rfl⟩ := derives_spacing htrail
  obtain ⟨later, rfl⟩ := derives_many_shape (fun _ => derives_laterPart hclause) hlater
  obtain ⟨ps, hps, hderivations⟩ := exists_parts ⟨lead, first, trail, hdepth⟩ later
  refine ⟨before, ps, hps, ?_⟩
  rw [derives_word hword, derives_mark hmark, derives_char hopen, derives_char hclose,
    hderivations]
  rfl

omit hclause in
theorem derives_predicateClause (h : Derives depth predicateClause ts) :
    ∃ (name : Comparison) (before opening : Blanks) (first : Value) (later : List LaterValue),
      ts = [.node (.production .predicateClause)
        ([.node (.action .becomePredicate) [], nameDerivation name, before.derivation, .char '(',
            opening.derivation, first.derivation] ++
          (later.flatMap LaterValue.derivations ++ [.char ')']))] := by
  obtain ⟨us, hbody, rfl⟩ := derives_named h
  obtain ⟨us₁, vs₁, hmark, h₁, rfl⟩ := derives_seq hbody
  obtain ⟨us₂, vs₂, hname, h₂, rfl⟩ := derives_seq h₁
  obtain ⟨us₃, vs₃, hbefore, h₃, rfl⟩ := derives_seq h₂
  obtain ⟨us₄, vs₄, hopen, h₄, rfl⟩ := derives_seq h₃
  obtain ⟨us₅, vs₅, hopening, h₅, rfl⟩ := derives_seq h₄
  obtain ⟨us₆, vs₆, hfirst, h₆, rfl⟩ := derives_seq h₅
  obtain ⟨us₇, vs₇, hlater, hclose, rfl⟩ := derives_seq h₆
  obtain ⟨name, rfl⟩ := derives_predicateName hname
  obtain ⟨before, rfl⟩ := derives_spacing hbefore
  obtain ⟨opening, rfl⟩ := derives_spacing hopening
  obtain ⟨first, rfl⟩ := derives_predicateValue hfirst
  obtain ⟨later, rfl⟩ := derives_many_shape (fun _ => derives_laterValue) hlater
  rw [derives_mark hmark, derives_char hopen, derives_char hclose]
  exact ⟨name, before, opening, first, later, rfl⟩

theorem derives_whereClause (h : Derives depth whereClause ts) :
    ∃ c : Clause, ts = [c.derivation] ∧ c.depth ≤ depth + 1 := by
  obtain ⟨us, hbody, rfl⟩ := derives_named h
  obtain ⟨us₁, vs₁, henter, h₁, rfl⟩ := derives_seq hbody
  obtain ⟨us₂, vs₂, hchoice, hleave, rfl⟩ := derives_seq h₁
  rw [derives_mark henter, derives_mark hleave]
  obtain hchoice | hchoice := derives_alt hchoice
  · obtain ⟨name, before, opening, first, later, rfl⟩ := derives_predicateClause hchoice
    exact ⟨.predicate name before opening first later, rfl, by simp [Clause.depth]⟩
  · obtain ⟨c, hgroup⟩ : ∃ c, Derives depth (groupClause c) us₂ := by
      obtain h | h := derives_alt hchoice
      · exact ⟨.or, h⟩
      · exact ⟨.and, h⟩
    obtain ⟨before, ps, hps, rfl⟩ := derives_groupClause hclause hgroup
    exact ⟨.group c before ps, rfl, Nat.succ_le_succ hps⟩

end Clauses

/-- The derivations of a clause are those of the clauses that are not nested too deep. -/
theorem derives_clause (depth : Nat) (ts : List Derivation) (h : Derives depth .clause ts) :
    ∃ c : Clause, ts = [c.derivation] ∧ c.depth ≤ depth := by
  induction depth generalizing ts with
  | zero => cases h
  | succ depth ih =>
    cases h with
    | clause h => exact derives_whereClause ih h

theorem derives_filter (h : Derives depth (.opt (.seq requiredSpacing whereSection)) ts) :
    ∃ filter : Option Filter, ts = (filter.map Filter.derivations).getD [] ∧
      (filter.map (·.clause.depth)).getD 0 ≤ depth := by
  obtain rfl | h := derives_opt h
  · exact ⟨none, rfl, Nat.zero_le _⟩
  · obtain ⟨us, us', hgap, hsection, rfl⟩ := derives_seq h
    obtain ⟨vs, hbody, rfl⟩ := derives_named hsection
    obtain ⟨us₁, vs₁, hword, h₁, rfl⟩ := derives_seq hbody
    obtain ⟨us₂, vs₂, hmark, h₂, rfl⟩ := derives_seq h₁
    obtain ⟨us₃, vs₃, hafter, hc, rfl⟩ := derives_seq h₂
    obtain ⟨before, rfl⟩ := derives_requiredSpacing hgap
    obtain ⟨after, rfl⟩ := derives_requiredSpacing hafter
    obtain ⟨c, rfl, hdepth⟩ := derives_clause depth _ hc
    rw [derives_word hword, derives_mark hmark]
    exact ⟨some ⟨before, after, c⟩, rfl, hdepth⟩

theorem derives_limit (h : Derives depth (.opt (.seq requiredSpacing limit)) ts) :
    ∃ limit : Option Limit, ts = (limit.map Limit.derivations).getD [] := by
  obtain rfl | h := derives_opt h
  · exact ⟨none, rfl⟩
  · obtain ⟨us, us', hgap, hsection, rfl⟩ := derives_seq h
    obtain ⟨vs, hbody, rfl⟩ := derives_named hsection
    obtain ⟨us₁, vs₁, hword, h₁, rfl⟩ := derives_seq hbody
    obtain ⟨us₂, vs₂, hafter, h₂, rfl⟩ := derives_seq h₁
    obtain ⟨us₃, vs₃, htext, hmark, rfl⟩ := derives_seq h₂
    obtain ⟨ws, hnumeral, rfl⟩ := derives_capture htext
    obtain ⟨before, rfl⟩ := derives_requiredSpacing hgap
    obtain ⟨after, rfl⟩ := derives_requiredSpacing hafter
    obtain ⟨n, rfl⟩ := derives_positiveInteger hnumeral
    rw [derives_word hword, derives_mark hmark]
    exact ⟨some ⟨before, after, n⟩, rfl⟩

theorem derives_selectKey (h : Derives depth selectKey ts) :
    ∃ k : Key, ts = [.node (.production .selectKey)
      [.node .text [k.derivation], .node (.action .nameTable) []]] := by
  obtain ⟨us, hbody, rfl⟩ := derives_named h
  obtain ⟨us₁, vs₁, htext, hmark, rfl⟩ := derives_seq hbody
  obtain ⟨vs, hkey, rfl⟩ := derives_capture htext
  obtain ⟨k, rfl⟩ := derives_key hkey
  rw [derives_mark hmark]
  exact ⟨k, rfl⟩

theorem derives_select (lead : Blanks) (h : Derives depth select ts) :
    ∃ s : Sentence, s.lead = lead ∧ ts = [s.selectDerivation] ∧ s.depth ≤ depth := by
  obtain ⟨us, hbody, rfl⟩ := derives_named h
  obtain ⟨us₁, vs₁, hword, h₁, rfl⟩ := derives_seq hbody
  obtain ⟨us₂, vs₂, hgap, h₂, rfl⟩ := derives_seq h₁
  obtain ⟨us₃, vs₃, hkey, h₃, rfl⟩ := derives_seq h₂
  obtain ⟨us₄, vs₄, hfilter, hlimit, rfl⟩ := derives_seq h₃
  obtain ⟨gap, rfl⟩ := derives_requiredSpacing hgap
  obtain ⟨k, rfl⟩ := derives_selectKey hkey
  obtain ⟨filter, rfl, hdepth⟩ := derives_filter hfilter
  obtain ⟨limit, rfl⟩ := derives_limit hlimit
  rw [derives_word hword]
  exact ⟨⟨lead, gap, k, filter, limit⟩, rfl, rfl, hdepth⟩

/-- The derivations of a query are those of the sentences whose clauses are not nested too deep. -/
theorem derives_query (h : Derives depth query ts) :
    ∃ s : Sentence, ts = [s.derivation] ∧ s.depth ≤ depth := by
  obtain ⟨us, hbody, rfl⟩ := derives_named h
  obtain ⟨us₁, vs₁, hlead, h₁, rfl⟩ := derives_seq hbody
  obtain ⟨us₂, vs₂, hselect, h₂, rfl⟩ := derives_seq h₁
  obtain ⟨us₃, vs₃, hmark, hfinish, rfl⟩ := derives_seq h₂
  obtain ⟨lead, rfl⟩ := derives_spacing hlead
  obtain ⟨s, rfl, rfl, hdepth⟩ := derives_select lead hselect
  rw [derives_mark hmark, derives_finish hfinish]
  exact ⟨s, rfl, hdepth⟩

end TableLang.Grammar
