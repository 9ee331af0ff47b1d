import TableLang.Proofs.Grammar.Parse
import TableLang.Proofs.Grammar.Written

/-! The sentences of the query language with their layout: a type for each kind of phrase, whose
values are the phrases of that kind and nothing else. A sentence knows its text, its derivation and
how deep its clauses are nested. -/
namespace TableLang

namespace Sentence
open Grammar

structure Blanks where
  chars : List Char
  blank : ∀ c ∈ chars, isSpace c = true

structure Gap where
  first : Char
  more : List Char
  blank_first : isSpace first = true
  blank_more : ∀ c ∈ more, isSpace c = true

inductive KeyPart where
  | plain (c : Char) (h : isKeyChar c = true)
  | escape (c : Char) (h : isEscapable c = true)

structure Key where
  first : KeyPart
  more : List KeyPart

structure Numeral where
  first : Char
  more : List Char
  leading : isLeadingDigit first = true
  digits : ∀ c ∈ more, c.isDigit = true

inductive Value where
  | literal (chars : List Char) (h : ∀ c ∈ chars, c ≠ '\'')
  | rowKey
  | key (k : Key)

structure LaterValue where
  before : Blanks
  value : Value
  after : Blanks

mutual
inductive Clause where
  /-- A comparison with the blanks around its parenthesis. -/
  | predicate (name : Comparison) (before opening : Blanks) (first : Value)
    (later : List LaterValue)
  /-- A group with the blanks before its parenthesis. -/
  | group (c : Connective) (before : Blanks) (parts : Parts)

inductive Parts where
  | last (before : Blanks) (clause : Clause) (after : Blanks)
  | more (before : Blanks) (clause : Clause) (after : Blanks) (others : Parts)
end

structure Filter where
  before : Gap
  after : Gap
  clause : Clause

structure Limit where
  before : Gap
  after : Gap
  numeral : Numeral

end Sentence

open Sentence in
structure Sentence where
  lead : Blanks
  gap : Gap
  key : Key
  filter : Option Filter
  limit : Option Limit

namespace Sentence
open Grammar

def Gap.text (g : Gap) : List Char := g.first :: g.more

def KeyPart.text : KeyPart → List Char
  | plain c _ => [c]
  | escape c _ => ['\\', c]

def Key.text (k : Key) : List Char := (k.first :: k.more).flatMap KeyPart.text

def Numeral.text (n : Numeral) : List Char := n.first :: n.more

def Value.text : Value → List Char
  | literal chars _ => '\'' :: (chars ++ ['\''])
  | rowKey => "@key".toList
  | key k => k.text

def LaterValue.text (v : LaterValue) : List Char :=
  ',' :: (v.before.chars ++ (v.value.text ++ v.after.chars))

mutual
def Clause.text : Clause → List Char
  | .predicate name before opening first later =>
    name.name.toList ++ (before.chars ++ ('(' :: (opening.chars ++ (first.text ++
      (later.flatMap LaterValue.text ++ [')'])))))
  | .group c before parts =>
    c.name.toList ++ (before.chars ++ ('(' :: (parts.text ++ [')'])))

def Parts.text : Parts → List Char
  | .last before clause after => before.chars ++ (clause.text ++ after.chars)
  | .more before clause after others =>
    before.chars ++ (clause.text ++ (after.chars ++ (',' :: others.text)))
end

def Filter.text (f : Filter) : List Char :=
  f.before.text ++ ("where".toList ++ (f.after.text ++ f.clause.text))

def Limit.text (l : Limit) : List Char :=
  l.before.text ++ ("limit".toList ++ (l.after.text ++ l.numeral.text))

def text (s : Sentence) : List Char :=
  s.lead.chars ++ ("select".toList ++ (s.gap.text ++ (s.key.text ++
    ((s.filter.map Filter.text).getD [] ++ (s.limit.map Limit.text).getD []))))

mutual
def Clause.depth : Clause → Nat
  | .predicate .. => 1
  | .group _ _ parts => parts.depth + 1

def Parts.depth : Parts → Nat
  | .last _ clause _ => clause.depth
  | .more _ clause _ others => max clause.depth others.depth
end

def depth (s : Sentence) : Nat := (s.filter.map (·.clause.depth)).getD 0

def Blanks.derivation (b : Blanks) : Derivation :=
  .node (.production .spacing) (b.chars.map .char)

def Gap.derivation (g : Gap) : Derivation :=
  .node (.production .requiredSpacing) (g.text.map .char)

def KeyPart.derivation : KeyPart → Derivation
  | plain c _ => .char c
  | escape c _ => .node (.production .escape) [.char '\\', .char c]

def Key.derivation (k : Key) : Derivation :=
  .node (.production .key) ((k.first :: k.more).map KeyPart.derivation)

def Numeral.derivation (n : Numeral) : Derivation :=
  .node (.production .positiveInteger) (n.text.map .char)

def Value.inner : Value → Derivation
  | literal chars _ =>
    .node (.production .predicateLiteral)
      [.char '\'', .node .text (chars.map .char), .char '\'', .node (.action .addLiteral) []]
  | rowKey =>
    .node (.production .predicateRowKey)
      ("@key".toList.map .char ++ [.node (.action .useRowKey) []])
  | key k =>
    .node (.production .predicateKey)
      [.node .text [k.derivation], .node (.action .addKey) []]

def Value.derivation (v : Value) : Derivation := .node (.production .predicateValue) [v.inner]

def LaterValue.derivations (v : LaterValue) : List Derivation :=
  [.char ',', v.before.derivation, v.value.derivation, v.after.derivation]

def nameDerivation (name : Comparison) : Derivation :=
  .node (.production .predicateName)
    [.node .text (name.name.toList.map .char), .node (.action .nameComparison) []]

def clauseNode (inner : Derivation) : Derivation :=
  .node (.production .whereClause)
    [.node (.action .enterClause) [], inner, .node (.action .leaveClause) []]

mutual
def Clause.derivation : Clause → Derivation
  | .predicate name before opening first later =>
    clauseNode <| .node (.production .predicateClause)
      ([.node (.action .becomePredicate) [], nameDerivation name, before.derivation, .char '(',
          opening.derivation, first.derivation] ++
        (later.flatMap LaterValue.derivations ++ [.char ')']))
  | .group c before parts =>
    clauseNode <| .node (.production (.groupClause c))
      (c.name.toList.map .char ++
        ([.node (.action (.becomeGroup c)) [], before.derivation, .char '('] ++
          (parts.derivations ++ [.char ')'])))

def Parts.derivations : Parts → List Derivation
  | .last before clause after => [before.derivation, clause.derivation, after.derivation]
  | .more before clause after others =>
    before.derivation :: clause.derivation :: after.derivation :: .char ',' :: others.derivations
end

def Filter.derivations (f : Filter) : List Derivation :=
  [f.before.derivation,
    .node (.production .whereSection)
      ("where".toList.map .char ++
        [.node (.action .openRoot) [], f.after.derivation, f.clause.derivation])]

def Limit.derivations (l : Limit) : List Derivation :=
  [l.before.derivation,
    .node (.production .limit)
      ("limit".toList.map .char ++
        [l.after.derivation, .node .text [l.numeral.derivation], .node (.action .setLimit) []])]

def selectDerivation (s : Sentence) : Derivation :=
  .node (.production .select)
    ("select".toList.map .char ++
      s.gap.derivation ::
      .node (.production .selectKey)
        [.node .text [s.key.derivation], .node (.action .nameTable) []] ::
      ((s.filter.map Filter.derivations).getD [] ++ (s.limit.map Limit.derivations).getD []))

def derivation (s : Sentence) : Derivation :=
  .node (.production .query)
    [s.lead.derivation, s.selectDerivation, .node (.action .chooseSelect) []]

section Text
open Derivation

@[simp]
theorem Blanks.text_derivation (b : Blanks) : b.derivation.text = b.chars := by
  simp [Blanks.derivation, Derivation.text]

@[simp]
theorem Gap.text_derivation (g : Gap) : g.derivation.text = g.text := by
  simp [Gap.derivation, Derivation.text]

@[simp]
theorem KeyPart.text_derivation (p : KeyPart) : p.derivation.text = p.text := by
  cases p <;> rfl

theorem KeyPart.textAll_map (ps : List KeyPart) :
    textAll (ps.map KeyPart.derivation) = ps.flatMap KeyPart.text := by
  induction ps with
  | nil => rfl
  | cons p ps ih => simp [textAll, ih]

@[simp]
theorem Key.text_derivation (k : Key) : k.derivation.text = k.text := by
  rw [Key.derivation, Derivation.text, KeyPart.textAll_map, Key.text]

@[simp]
theorem Numeral.text_derivation (n : Numeral) : n.derivation.text = n.text := by
  simp [Numeral.derivation, Derivation.text]

@[simp]
theorem Value.text_derivation (v : Value) : v.derivation.text = v.text := by
  cases v <;> simp [Value.derivation, Value.inner, Value.text, Derivation.text, textAll]

@[simp]
theorem LaterValue.textAll_derivations (v : LaterValue) : textAll v.derivations = v.text := by
  simp [LaterValue.derivations, LaterValue.text, Derivation.text, textAll]

theorem LaterValue.textAll_flatMap (vs : List LaterValue) :
    textAll (vs.flatMap LaterValue.derivations) = vs.flatMap LaterValue.text := by
  induction vs with
  | nil => rfl
  | cons v vs ih => simp [textAll_append, ih]

mutual
@[simp]
theorem Clause.text_derivation : (c : Clause) → c.derivation.text = c.text
  | .predicate name before opening first later => by
    simp [Clause.derivation, clauseNode, nameDerivation, Clause.text, Derivation.text, textAll,
      textAll_append, LaterValue.textAll_flatMap]
  | .group c before parts => by
    simp [Clause.derivation, clauseNode, Clause.text, Derivation.text, textAll, textAll_append,
      Parts.textAll_derivations parts]

@[simp]
theorem Parts.textAll_derivations : (ps : Parts) → textAll ps.derivations = ps.text
  | .last before clause after => by
    simp [Parts.derivations, Parts.text, textAll, Clause.text_derivation clause]
  | .more before clause after others => by
    simp [Parts.derivations, Parts.text, Derivation.text, textAll, Clause.text_derivation clause,
      Parts.textAll_derivations others]
end

@[simp]
theorem Filter.textAll_derivations (f : Filter) : textAll f.derivations = f.text := by
  simp [Filter.derivations, Filter.text, Derivation.text, textAll]

@[simp]
theorem Limit.textAll_derivations (l : Limit) : textAll l.derivations = l.text := by
  simp [Limit.derivations, Limit.text, Derivation.text, textAll]

theorem text_derivation (s : Sentence) : s.derivation.text = s.text := by
  obtain ⟨lead, gap, key, filter, limit⟩ := s
  cases filter <;> cases limit <;>
    simp [derivation, selectDerivation, Sentence.text, Derivation.text, textAll, textAll_append]

end Text

section Nesting
open Derivation

@[simp]
theorem Blanks.nesting_derivation (b : Blanks) : b.derivation.nesting = 0 := by
  simp [Blanks.derivation, nesting]

@[simp]
theorem Gap.nesting_derivation (g : Gap) : g.derivation.nesting = 0 := by
  simp [Gap.derivation, nesting]

theorem KeyPart.nestingAll_map (ps : List KeyPart) :
    nestingAll (ps.map KeyPart.derivation) = 0 := by
  induction ps with
  | nil => rfl
  | cons p ps ih => cases p <;> simp [KeyPart.derivation, nestingAll, nesting, ih]

@[simp]
theorem Key.nesting_derivation (k : Key) : k.derivation.nesting = 0 := by
  simp only [Key.derivation, nesting, KeyPart.nestingAll_map]
  rfl

@[simp]
theorem Numeral.nesting_derivation (n : Numeral) : n.derivation.nesting = 0 := by
  simp [Numeral.derivation, nesting]

@[simp]
theorem Value.nesting_derivation (v : Value) : v.derivation.nesting = 0 := by
  cases v <;> simp [Value.derivation, Value.inner, nesting, nestingAll]

theorem LaterValue.nestingAll_flatMap (vs : List LaterValue) :
    nestingAll (vs.flatMap LaterValue.derivations) = 0 := by
  induction vs with
  | nil => rfl
  | cons v vs ih => simp [LaterValue.derivations, nesting, nestingAll, ih]

mutual
@[simp]
theorem Clause.nesting_derivation : (c : Clause) → c.derivation.nesting = c.depth
  | .predicate name before opening first later => by
    simp [Clause.derivation, clauseNode, nameDerivation, Clause.depth, nesting, nestingAll,
      LaterValue.nestingAll_flatMap]
  | .group c before parts => by
    simp [Clause.derivation, clauseNode, Clause.depth, nesting, nestingAll,
      Parts.nestingAll_derivations parts]

@[simp]
theorem Parts.nestingAll_derivations : (ps : Parts) → nestingAll ps.derivations = ps.depth
  | .last before clause after => by
    simp [Parts.derivations, Parts.depth, nestingAll, Clause.nesting_derivation clause]
  | .more before clause after others => by
    simp [Parts.derivations, Parts.depth, nesting, nestingAll, Clause.nesting_derivation clause,
      Parts.nestingAll_derivations others]
end

theorem nesting_derivation (s : Sentence) : s.derivation.nesting = s.depth := by
  obtain ⟨lead, gap, key, filter, limit⟩ := s
  cases filter <;> cases limit <;>
    simp [derivation, selectDerivation, depth, Filter.derivations, Limit.derivations, nesting,
      nestingAll]

end Nesting

def Blanks.none : Blanks := ⟨[], by simp⟩

def Gap.blank : Gap := ⟨' ', [], rfl, by simp⟩

theorem isKeyChar_a : isKeyChar 'a' = true := rfl

/-- The sentence `select a where or(str_eq(@key,'')) limit 7`. -/
def specimen : Sentence where
  lead := .none
  gap := .blank
  key := ⟨.plain 'a' rfl, []⟩
  filter := some ⟨.blank, .blank, .group .or .none (.last .none
    (.predicate .equal .none .none .rowKey [⟨.none, .literal [] (by simp), .none⟩]) .none)⟩
  limit := some ⟨.blank, .blank, ⟨'7', [], rfl, by simp⟩⟩

theorem specimen_text :
    specimen.text = "select a where or(str_eq(@key,'')) limit 7".toList := by decide

end Sentence
end TableLang
