import TableLang.Proofs.Match.Calls
import TableLang.Proofs.Nesting

/-! How far a reading has got when it comes to a clause. Main statements: it has read fifteen
characters before the first clause, and three more for each clause within another; so the bound on
the nesting has no influence on texts that are too short to reach it. -/
namespace TableLang.Grammar
open Grammar.Derivation

namespace Expr

def least : Expr → Nat
  | one _ => 1
  | seq e f => e.least + f.least
  | alt e f => min e.least f.least
  | ifNext _ e f => min e.least f.least
  | named _ e => e.least
  | capture e => e.least
  | _ => 0

/-- True when an expression does not come to a clause before it has read `n` characters. -/
def opensAfter : Expr → Nat → Bool
  | clause, n => n = 0
  | seq e f, n => e.opensAfter n && f.opensAfter (n - e.least)
  | alt e f, n => e.opensAfter n && f.opensAfter n
  | opt e, n => e.opensAfter n
  | many _ e, n => e.opensAfter n
  | ifNext _ e f, n => e.opensAfter n && f.opensAfter n
  | named _ e, n => e.opensAfter n
  | capture e, n => e.opensAfter n
  | _, _ => true

end Expr

theorem least_le {depth : Nat} {e : Expr} {ts : List Derivation} (h : Derives depth e ts) :
    e.least ≤ (textAll ts).length := by
  induction h with
  | one h => exact Nat.le_refl _
  | seq first second ihe ihf =>
    rw [textAll_append, List.length_append]
    exact Nat.add_le_add ihe ihf
  | altFirst h ih => exact Nat.le_trans (Nat.min_le_left ..) ih
  | altSecond h ih => exact Nat.le_trans (Nat.min_le_right ..) ih
  | ifYes h ih => exact Nat.le_trans (Nat.min_le_left ..) ih
  | ifNo h ih => exact Nat.le_trans (Nat.min_le_right ..) ih
  | named h ih => simpa [Expr.least, textAll, text] using ih
  | capture h ih => simpa [Expr.least, textAll, text] using ih
  | _ => exact Nat.zero_le _

theorem opensAfter_of_le {e : Expr} {m n : Nat} (hle : m ≤ n) (h : e.opensAfter n = true) :
    e.opensAfter m = true := by
  induction e generalizing m n with
  | clause =>
    have hn : n = 0 := of_decide_eq_true h
    exact decide_eq_true (by omega)
  | seq e f ihe ihf =>
    rw [Expr.opensAfter, Bool.and_eq_true] at h ⊢
    exact ⟨ihe hle h.1, ihf (Nat.sub_le_sub_right hle _) h.2⟩
  | alt e f ihe ihf =>
    rw [Expr.opensAfter, Bool.and_eq_true] at h ⊢
    exact ⟨ihe hle h.1, ihf hle h.2⟩
  | ifNext c e f ihe ihf =>
    rw [Expr.opensAfter, Bool.and_eq_true] at h ⊢
    exact ⟨ihe hle h.1, ihf hle h.2⟩
  | opt e ih => exact ih hle h
  | many ahead e ih => exact ih hle h
  | named p e ih => exact ih hle h
  | capture e ih => exact ih hle h
  | _ => rfl

/-- Before its first clause a query has the words `select` and `where`, three gaps and a key. -/
theorem query_opensAfter : query.opensAfter 15 = true := by decide

/-- Before the first clause of a group there are its word and a parenthesis. -/
theorem clauseBody_opensAfter : clauseBody.opensAfter 3 = true := by decide

section Parsing
variable {depth : Nat} {e : Expr} {input rest : List Char}

/-- What is left after an expression is matched is shorter by what it matches at least. -/
theorem length_add_least_le {ts : List Derivation}
    (h : e.parse (parseClause depth) input = .done ts rest) :
    rest.length + e.least ≤ input.length := by
  have hleast := least_le (parse_derives (parseClause_derives depth) e _ _ _ h)
  rw [Match.input_eq_of_parse h, List.length_append]
  omega

theorem le_of_repeated_tooDeep {ahead : List Char → Bool} {n : Nat}
    (hstep : ∀ input rest, e.parse (parseClause depth) input = .tooDeep rest →
      rest.length + n ≤ input.length)
    (h : Parse.repeated ahead (e.parse (parseClause depth)) input = .tooDeep rest) :
    rest.length + n ≤ input.length := by
  fun_induction Parse.repeated ahead (e.parse (parseClause depth)) input with
  | case1 input hahead ts mid hs hless ih =>
    have hmore := ih (Parse.prepend_eq_tooDeep.1 h)
    omega
  | case2 input hahead ts mid hs hless => cases h
  | case3 input hahead hs => cases h
  | case4 input hahead mid hs =>
    cases h
    exact hstep _ _ hs
  | case5 input hahead => cases h

/-- A reading that comes to a clause nested too deep has read what stands before any clause in the
expression, and three characters for each clause that is allowed, if that holds of nested
clauses. -/
theorem le_of_parse_tooDeep
    (hclause : ∀ input rest, parseClause depth input = .tooDeep rest →
      rest.length + 3 * depth ≤ input.length)
    {n : Nat} (hopens : e.opensAfter n = true)
    (h : e.parse (parseClause depth) input = .tooDeep rest) :
    rest.length + (n + 3 * depth) ≤ input.length := by
  induction e generalizing input rest n with
  | seq e f ihe ihf =>
    rw [Expr.opensAfter, Bool.and_eq_true] at hopens
    obtain he | ⟨ts, mid, he, hf⟩ := Parse.andThen_eq_tooDeep.1 h
    · exact ihe hopens.1 he
    · have hfirst := length_add_least_le he
      have hsecond := ihf hopens.2 hf
      omega
  | alt e f ihe ihf =>
    rw [Expr.opensAfter, Bool.and_eq_true] at hopens
    obtain he | ⟨-, hf⟩ := Parse.orElse_eq_tooDeep.1 h
    · exact ihe hopens.1 he
    · exact ihf hopens.2 hf
  | opt e ih =>
    obtain he | ⟨-, hnone⟩ := Parse.orElse_eq_tooDeep.1 h
    · exact ih hopens he
    · cases hnone
  | many ahead e ih => exact le_of_repeated_tooDeep (fun _ _ hstep => ih hopens hstep) h
  | ifNext c e f ihe ihf =>
    rw [Expr.opensAfter, Bool.and_eq_true] at hopens
    rw [Expr.parse] at h
    split at h
    · exact ihe hopens.1 h
    · exact ihf hopens.2 h
  | named p e ih => exact ih hopens (Parse.wrap_eq_tooDeep.1 h)
  | capture e ih => exact ih hopens (Parse.wrap_eq_tooDeep.1 h)
  | clause =>
    have hn : n = 0 := of_decide_eq_true hopens
    have hle := hclause _ _ h
    omega
  | _ =>
    refine absurd h (Expr.parse_ne_tooDeep ?_ _ _)
    trivial

theorem le_of_parseClause_tooDeep (depth : Nat) (input rest : List Char)
    (h : parseClause depth input = .tooDeep rest) : rest.length + 3 * depth ≤ input.length := by
  induction depth generalizing input rest with
  | zero =>
    cases h
    exact Nat.le_refl _
  | succ depth ih =>
    have hle := le_of_parse_tooDeep ih clauseBody_opensAfter (Parse.wrap_eq_tooDeep.1 h)
    omega

theorem le_of_parse_query_tooDeep (h : query.parse (parseClause depth) input = .tooDeep rest) :
    15 + 3 * depth ≤ input.length := by
  have hle := le_of_parse_tooDeep (le_of_parseClause_tooDeep depth) query_opensAfter h
  omega

end Parsing
end TableLang.Grammar

namespace TableLang.Match
open Grammar

section Calls
variable {depth : Nat} {e f : Expr} {s t : State}

theorem pos_add_least_le (h : e.read (readClause depth) s = .matched t) :
    s.pos + e.least ≤ t.pos := by
  obtain ⟨ts, hadvanced, hderives⟩ := exists_derives_of_matched h
  rw [hadvanced.pos]
  exact Nat.add_le_add_left (least_le hderives) _

/-- If an expression comes to no clause before an offset, its parts do not. -/
theorem Part.opensAfter (h : Part (readClause depth) e s f t) {bound : Nat}
    (he : e.opensAfter (bound - s.pos) = true) : f.opensAfter (bound - t.pos) = true := by
  cases h with
  | seqFirst => exact (Bool.and_eq_true_iff.1 he).1
  | seqSecond h =>
    have hpos := pos_add_least_le h
    exact opensAfter_of_le (by omega) (Bool.and_eq_true_iff.1 he).2
  | altFirst => exact (Bool.and_eq_true_iff.1 he).1
  | altSecond h =>
    have hpos := (advanced_of_attempt h).pos
    exact opensAfter_of_le (by omega) (Bool.and_eq_true_iff.1 he).2
  | opt => exact he
  | manyStep hahead => exact he
  | manyLater hahead h =>
    have hpos := pos_add_least_le h
    exact opensAfter_of_le (by omega) he
  | ifNextYes h => exact (Bool.and_eq_true_iff.1 he).1
  | ifNextNo h => exact (Bool.and_eq_true_iff.1 he).2
  | named => exact he
  | capture => exact he

end Calls

structure Call.Distant (c : Call) : Prop where
  counts : c.Counts
  opens : c.expr.opensAfter (15 + 3 * c.depth - c.state.pos) = true
  apart : ∀ f ∈ c.state.openClauses.head?, c.expr.opensAfter (f.start + 3 - c.state.pos) = true

theorem Call.Distant.next {maxDepth : Nat} {c d : Call} (hc : c.Distant) (h : Makes maxDepth c d) :
    d.Distant := by
  refine ⟨hc.counts.next h, ?_, ?_⟩
  · cases h with
    | part h => exact h.opensAfter hc.opens
    | @clause depth s h =>
      -- The clause itself is called in time, and its body has three more characters first.
      have hpos : 15 + 3 * depth - s.pos = 0 := of_decide_eq_true hc.opens
      refine opensAfter_of_le ?_ clauseBody_opensAfter
      change 15 + 3 * (depth + 1) - s.pos ≤ 3
      omega
  · cases h with
    | part h =>
      intro f hf
      rw [h.openClauses hc.counts.follows] at hf
      exact h.opensAfter (hc.apart f hf)
    | @clause depth s h =>
      intro f hf
      rw [openClauses_enter_clause] at hf
      obtain rfl := Option.some.inj hf
      refine opensAfter_of_le ?_ clauseBody_opensAfter
      change s.pos + 3 - s.pos ≤ 3
      omega

theorem Made.distant {settings : Settings} {input : List Char} {c : Call}
    (h : Made settings input c) : c.Distant := by
  refine Made.induction (P := Call.Distant) ?_ (fun _ _ hmakes hc => hc.next hmakes) h
  refine ⟨⟨query_follows, rfl⟩, query_opensAfter, fun f hf => ?_⟩
  cases hf

/-- A clause is begun three characters after the clause around it or later, and within `depth`
others not before the offset `15 + 3 * depth`. -/
theorem Made.clause_pos {settings : Settings} {input : List Char} {depth : Nat} {s : State}
    (h : Made settings input ⟨depth, .clause, s⟩) :
    15 + 3 * depth ≤ s.pos ∧ ∀ f ∈ s.openClauses.head?, f.start + 3 ≤ s.pos := by
  have hdistant := h.distant
  constructor
  · have hpos : 15 + 3 * depth - s.pos = 0 := of_decide_eq_true hdistant.opens
    omega
  · intro f hf
    have hpos : f.start + 3 - s.pos = 0 := of_decide_eq_true (hdistant.apart f hf)
    omega

end TableLang.Match

namespace TableLang
open Grammar Match

/-- Only a text long enough for so many clauses in each other is refused for its nesting. -/
theorem le_of_tokenize_nestingTooDeep {settings : Settings} {source : String} {limit : Nat}
    {position : Position} (h : tokenize settings source = .error (.nestingTooDeep limit position)) :
    15 + 3 * settings.maxDepth ≤ source.length := by
  obtain ⟨-, -, rest, hparse, -⟩ := tokenize_eq_nestingTooDeep_iff.1 h
  rw [← String.length_toList]
  exact le_of_parse_query_tooDeep hparse

/-- Bounds on the nesting that a text is too short to reach make no difference to it. -/
theorem tokenize_of_short (settings : Settings) {source : String} {depth depth' : Nat}
    (h : source.length < 15 + 3 * depth) (h' : source.length < 15 + 3 * depth') :
    tokenize { settings with maxDepth := depth' } source =
      tokenize { settings with maxDepth := depth } source := by
  obtain hle | hle := Nat.le_total depth depth'
  · obtain ⟨position, hdeep⟩ | hsame := tokenize_persists settings source hle
    · exact absurd (le_of_tokenize_nestingTooDeep hdeep) (Nat.not_le.2 h)
    · exact hsame
  · obtain ⟨position, hdeep⟩ | hsame := tokenize_persists settings source hle
    · exact absurd (le_of_tokenize_nestingTooDeep hdeep) (Nat.not_le.2 h')
    · exact hsame.symm

end TableLang
