import TableLang.Grammar.Derivation

/-! The grammar as it is written down, independent of the expressions by which the input is read: a
table with one right-hand side for each production, in which productions refer to each other by
name, and the derivation trees it admits when it is taken as an ordinary context-free grammar. -/
namespace TableLang.Grammar

inductive Rhs where
  /-- No text. The mark for the end of the input is of this kind: a derivation spells the whole
  input, so that nothing can be left after it. -/
  | empty
  | one (accepts : Char → Bool)
  | rule (p : Production)
  | mark (a : Action)
  | capture (body : Rhs)
  | seq (first second : Rhs)
  | choice (first second : Rhs)
  | opt (body : Rhs)
  | star (body : Rhs)

namespace Rhs

def seqAll : List Rhs → Rhs
  | [] => empty
  | [r] => r
  | r :: rs => seq r (seqAll rs)

def char (c : Char) : Rhs := one fun d => d = c

def word (text : String) : Rhs := seqAll (text.toList.map char)

def plus (body : Rhs) : Rhs := seq body (star body)

def among (chars : String) (c : Char) : Bool := chars.toList.contains c

def between (ranges : List (Char × Char)) (c : Char) : Bool :=
  ranges.any fun r => r.1 ≤ c && c ≤ r.2

def group (name : String) (a : Action) : Rhs :=
  seqAll [word name, mark a, rule .spacing, char '(', rule .spacing, rule .whereClause,
    rule .spacing,
    star (seqAll [char ',', rule .spacing, rule .whereClause, rule .spacing]), char ')']

end Rhs

open Rhs in
def rhs : Production → Rhs
  | .query => seqAll [rule .spacing, rule .select, mark .chooseSelect, empty]
  | .select =>
    seqAll [word "select", rule .requiredSpacing, rule .selectKey,
      opt (seq (rule .requiredSpacing) (rule .whereSection)),
      opt (seq (rule .requiredSpacing) (rule .limit))]
  | .selectKey => seqAll [capture (rule .key), mark .nameTable]
  | .limit =>
    seqAll [word "limit", rule .requiredSpacing, capture (rule .positiveInteger), mark .setLimit]
  | .whereSection =>
    seqAll [word "where", mark .openRoot, rule .requiredSpacing, rule .whereClause]
  | .whereClause =>
    seqAll [mark .enterClause,
      choice (rule .predicateClause)
        (choice (rule (.groupClause .or)) (rule (.groupClause .and))),
      mark .leaveClause]
  | .groupClause .and => group "and" (.becomeGroup .and)
  | .groupClause .or => group "or" (.becomeGroup .or)
  | .predicateClause =>
    seqAll [mark .becomePredicate, rule .predicateName, rule .spacing, char '(', rule .spacing,
      rule .predicateValue,
      star (seqAll [char ',', rule .spacing, rule .predicateValue, rule .spacing]), char ')']
  | .predicateName =>
    seqAll [capture (choice (word "str_eq") (word "str_neq")), mark .nameComparison]
  | .predicateValue =>
    choice (rule .predicateLiteral) (choice (rule .predicateRowKey) (rule .predicateKey))
  | .predicateRowKey => seqAll [word "@key", mark .useRowKey]
  | .predicateKey => seqAll [capture (rule .key), mark .addKey]
  | .predicateLiteral =>
    seqAll [char '\'', capture (star (one (· ≠ '\''))), char '\'', mark .addLiteral]
  | .key => plus (choice (rule .escape) (one (between [('0', '9'), ('A', 'Z'), ('a', 'z')])))
  | .escape => seqAll [char '\\', one (among "abfnrtv\\?\"'")]
  | .positiveInteger => seqAll [one (between [('1', '9')]), star (one (between [('0', '9')]))]
  | .requiredSpacing => plus (one (among " \t\n"))
  | .spacing => star (one (among " \t\n"))

/-- The relation between a right-hand side and the rows of derivations by it. Choices are not
ordered, and optional parts and repetitions take as much or as little as they like. -/
inductive Generates : Rhs → List Derivation → Prop where
  | empty : Generates .empty []
  | one {accepts : Char → Bool} {c : Char} (h : accepts c = true) :
    Generates (.one accepts) [.char c]
  | rule {p : Production} {ts : List Derivation} (h : Generates (rhs p) ts) :
    Generates (.rule p) [.node (.production p) ts]
  | mark {a : Action} : Generates (.mark a) [.node (.action a) []]
  | capture {r : Rhs} {ts : List Derivation} (h : Generates r ts) :
    Generates (.capture r) [.node .text ts]
  | seq {q r : Rhs} {ts us : List Derivation} (first : Generates q ts) (second : Generates r us) :
    Generates (.seq q r) (ts ++ us)
  | choiceFirst {q r : Rhs} {ts : List Derivation} (h : Generates q ts) :
    Generates (.choice q r) ts
  | choiceSecond {q r : Rhs} {ts : List Derivation} (h : Generates r ts) :
    Generates (.choice q r) ts
  | optNone {r : Rhs} : Generates (.opt r) []
  | optSome {r : Rhs} {ts : List Derivation} (h : Generates r ts) : Generates (.opt r) ts
  | starNone {r : Rhs} : Generates (.star r) []
  | starMore {r : Rhs} {ts us : List Derivation} (first : Generates r ts)
    (later : Generates (.star r) us) : Generates (.star r) (ts ++ us)

namespace Derivation

mutual
def nesting : Derivation → Nat
  | char _ => 0
  | node label parts =>
    if label = .production .whereClause then nestingAll parts + 1 else nestingAll parts

def nestingAll : List Derivation → Nat
  | [] => 0
  | t :: ts => max (nesting t) (nestingAll ts)
end

/-- A derivation of a whole text from `Query`. -/
structure Spells (t : Derivation) (source : List Char) : Prop where
  derived : Generates (.rule .query) [t]
  text_eq : t.text = source

@[simp]
theorem nestingAll_append (ts us : List Derivation) :
    nestingAll (ts ++ us) = max (nestingAll ts) (nestingAll us) := by
  induction ts with
  | nil => simp [nestingAll]
  | cons t ts ih => simp [nestingAll, ih, Nat.max_assoc]

@[simp]
theorem nestingAll_chars (cs : List Char) : nestingAll (cs.map char) = 0 := by
  induction cs with
  | nil => rfl
  | cons c cs ih => simp [nestingAll, nesting, ih]

theorem nestingAll_flatten_le {rows : List (List Derivation)} {depth : Nat} :
    nestingAll rows.flatten ≤ depth ↔ ∀ us ∈ rows, nestingAll us ≤ depth := by
  induction rows with
  | nil => simp [nestingAll]
  | cons us rows ih =>
    rw [List.flatten_cons, nestingAll_append, Nat.max_le, ih, List.forall_mem_cons]

end Derivation

end TableLang.Grammar
