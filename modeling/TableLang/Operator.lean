/-! The words that say what a query, a clause or a comparison does, and what each of them means. -/
namespace TableLang

/-- What a query does. No text says `join`: such a query is put together by hand. -/
inductive Operation where
  | select
  | join
deriving DecidableEq

inductive Connective where
  | and
  | or
deriving DecidableEq

inductive ClauseKind where
  | group (c : Connective)
  | predicate
deriving DecidableEq

inductive Comparison where
  | equal
  | notEqual
deriving DecidableEq

namespace Operation

def name : Operation → String
  | select => "select"
  | join => "join"

def ofName? (word : String) : Option Operation :=
  [select, join].find? (·.name = word)

end Operation

namespace Connective

def name : Connective → String
  | and => "and"
  | or => "or"

end Connective

namespace ClauseKind

def name : ClauseKind → String
  | group c => c.name
  | predicate => "predicate"

def ofName? (word : String) : Option ClauseKind :=
  [group .and, group .or, predicate].find? (·.name = word)

end ClauseKind

namespace Comparison

def name : Comparison → String
  | equal => "str_eq"
  | notEqual => "str_neq"

def ofName? (word : String) : Option Comparison :=
  [equal, notEqual].find? (·.name = word)

end Comparison
end TableLang
