import TableLang.Draft.Script
import TableLang.Proofs.Grammar.Sentence

/-! The edits that a sentence calls for. First, the script of the tokens of a derivation is read off
the derivation itself, without offsets; then it is spelt out for every kind of phrase. Each text
that an edit takes is the one captured for that very edit. -/
namespace TableLang

def Script.after (edits : List Edit) (s : Script) : Script := ⟨edits ++ s.edits, s.fault⟩

theorem Script.after_after (es fs : List Edit) (s : Script) :
    (s.after fs).after es = s.after (es ++ fs) := by
  simp [Script.after]

theorem slice?_append (before text after : List Char) :
    slice? (before ++ (text ++ after)) before.length (before.length + text.length) = some text := by
  simp [slice?]

namespace Grammar.Derivation

mutual
def lastText (text : String) : Derivation → String
  | char _ => text
  | node .text parts => String.ofList (textAll parts)
  | node _ parts => lastTextAll text parts

def lastTextAll (text : String) : List Derivation → String
  | [] => text
  | t :: ts => lastTextAll (lastText text t) ts
end

mutual
def edits (text : String) : Derivation → List Edit
  | char _ => []
  | node (.action a) parts => editsAll text parts ++ [a.edit (lastTextAll text parts)]
  | node _ parts => editsAll text parts

def editsAll (text : String) : List Derivation → List Edit
  | [] => []
  | t :: ts => edits text t ++ editsAll (lastText text t) ts
end

mutual
/-- The script of the tokens of a derivation goes on with the script of the tokens after them. -/
theorem ofTokens_tokens (input : List Char) (later : List Token) :
    (t : Derivation) → (text : String) → (before after : List Char) →
    input = before ++ (t.text ++ after) →
    Script.ofTokens input text (t.tokens before.length ++ later) =
      (Script.ofTokens input (t.lastText text) later).after (t.edits text)
  | char _, text, before, after, h => rfl
  | node label parts, text, before, after, h => by
    have hparts := ofTokens_tokensAll input
      (⟨label, before.length, before.length + (textAll parts).length⟩ :: later) parts text before
      after h
    rw [Derivation.tokens, List.append_assoc, List.singleton_append, hparts]
    have hslice : slice? input before.length (before.length + (textAll parts).length) =
        some (textAll parts) := by
      rw [h]
      exact slice?_append before (textAll parts) after
    cases label with
    | text => simp [Script.ofTokens, hslice, lastText, edits]
    | action a => simp [Script.ofTokens, lastText, edits, Script.after]
    | production p => simp [Script.ofTokens, lastText, edits]
    | blank => simp [Script.ofTokens, lastText, edits]

theorem ofTokens_tokensAll (input : List Char) (later : List Token) :
    (ts : List Derivation) → (text : String) → (before after : List Char) →
    input = before ++ (textAll ts ++ after) →
    Script.ofTokens input text (tokensAll before.length ts ++ later) =
      (Script.ofTokens input (lastTextAll text ts) later).after (editsAll text ts)
  | [], text, before, after, h => rfl
  | t :: ts, text, before, after, h => by
    have hfirst := ofTokens_tokens input (tokensAll (before ++ t.text).length ts ++ later) t text
      before (textAll ts ++ after) (by rw [h, textAll, List.append_assoc])
    have hrest := ofTokens_tokensAll input later ts (t.lastText text) (before ++ t.text) after
      (by rw [h, textAll, List.append_assoc, List.append_assoc])
    rw [hrest, Script.after_after] at hfirst
    simpa [tokensAll, lastTextAll, editsAll] using hfirst
end

theorem ofTokens_eq (t : Derivation) (text : String) :
    Script.ofTokens t.text text (t.tokens 0) = ⟨t.edits text, none⟩ := by
  have h := ofTokens_tokens t.text [] t text [] [] (by simp)
  simpa [Script.ofTokens, Script.after] using h

@[simp]
theorem editsAll_append (text : String) (ts us : List Derivation) :
    editsAll text (ts ++ us) = editsAll text ts ++ editsAll (lastTextAll text ts) us := by
  induction ts generalizing text with
  | nil => rfl
  | cons t ts ih => simp [editsAll, lastTextAll, ih]

@[simp]
theorem editsAll_chars (text : String) (cs : List Char) : editsAll text (cs.map char) = [] := by
  induction cs with
  | nil => rfl
  | cons c cs ih => simp [editsAll, edits, lastText, ih]

@[simp]
theorem lastTextAll_chars (text : String) (cs : List Char) :
    lastTextAll text (cs.map char) = text := by
  induction cs with
  | nil => rfl
  | cons c cs ih => simp [lastTextAll, lastText, ih]

end Grammar.Derivation

namespace Sentence
open Grammar Derivation

def Value.edit : Value → Edit
  | literal chars _ => .addLiteral (String.ofList chars)
  | rowKey => .useRowKey
  | key k => .addKey (String.ofList k.text)

mutual
def Clause.edits : Clause → List Edit
  | .predicate name _ _ first later =>
    [.enterClause, .becomePredicate, .nameComparison name.name] ++
      ((first :: later.map LaterValue.value).map Value.edit ++ [.leaveClause])
  | .group c _ parts => [.enterClause, .becomeGroup c] ++ (parts.edits ++ [.leaveClause])

def Parts.edits : Parts → List Edit
  | .last _ clause _ => clause.edits
  | .more _ clause _ others => clause.edits ++ others.edits
end

def edits (s : Sentence) : List Edit :=
  .nameTable (String.ofList s.key.text) ::
    ((s.filter.map fun f => .openRoot :: f.clause.edits).getD [] ++
      ((s.limit.map fun l => [.setLimit (String.ofList l.numeral.text)]).getD [] ++
        [.chooseSelect]))

@[simp]
theorem Blanks.edits_derivation (text : String) (b : Blanks) : b.derivation.edits text = [] := by
  simp [Blanks.derivation, Derivation.edits]

@[simp]
theorem Gap.edits_derivation (text : String) (g : Gap) : g.derivation.edits text = [] := by
  simp [Gap.derivation, Derivation.edits]

theorem KeyPart.editsAll_map (text : String) (ps : List KeyPart) :
    editsAll text (ps.map KeyPart.derivation) = [] := by
  induction ps generalizing text with
  | nil => rfl
  | cons p ps ih => cases p <;> simp [KeyPart.derivation, editsAll, Derivation.edits, ih]

@[simp]
theorem Key.edits_derivation (text : String) (k : Key) : k.derivation.edits text = [] := by
  rw [Key.derivation, Derivation.edits, KeyPart.editsAll_map]
  intro a h
  cases h

@[simp]
theorem Numeral.edits_derivation (text : String) (n : Numeral) :
    n.derivation.edits text = [] := by
  simp [Numeral.derivation, Derivation.edits]

@[simp]
theorem Value.edits_derivation (text : String) (v : Value) :
    v.derivation.edits text = [v.edit] := by
  cases v <;>
    simp [Value.derivation, Value.inner, Value.edit, Derivation.edits, editsAll, lastText,
      lastTextAll, textAll, Action.edit]

theorem LaterValue.editsAll_flatMap (text : String) (vs : List LaterValue) :
    editsAll text (vs.flatMap LaterValue.derivations) =
      (vs.map LaterValue.value).map Value.edit := by
  induction vs generalizing text with
  | nil => rfl
  | cons v vs ih => simp [LaterValue.derivations, editsAll, Derivation.edits, ih]

mutual
@[simp]
theorem Clause.edits_derivation (text : String) :
    (c : Clause) → c.derivation.edits text = c.edits
  | .predicate name before opening first later => by
    -- Every edit that takes a text has the text captured for it right before it.
    simp [Clause.derivation, clauseNode, nameDerivation, Clause.edits, Derivation.edits, editsAll,
      lastText, lastTextAll, Action.edit, LaterValue.editsAll_flatMap]
  | .group c before parts => by
    simp [Clause.derivation, clauseNode, Clause.edits, Derivation.edits, editsAll, Action.edit,
      Parts.editsAll_derivations _ parts]

@[simp]
theorem Parts.editsAll_derivations (text : String) :
    (ps : Parts) → editsAll text ps.derivations = ps.edits
  | .last before clause after => by
    simp [Parts.derivations, Parts.edits, editsAll, Clause.edits_derivation _ clause]
  | .more before clause after others => by
    simp [Parts.derivations, Parts.edits, editsAll, Derivation.edits,
      Clause.edits_derivation _ clause, Parts.editsAll_derivations _ others]
end

theorem edits_derivation (text : String) (s : Sentence) : s.derivation.edits text = s.edits := by
  obtain ⟨lead, gap, key, filter, limit⟩ := s
  cases filter <;> cases limit <;>
    simp [derivation, selectDerivation, Sentence.edits, Filter.derivations, Limit.derivations,
      Derivation.edits, editsAll, lastText, lastTextAll, textAll, Action.edit]

end Sentence
end TableLang
