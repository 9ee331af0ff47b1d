import TableLang.Operator

/-! What a span of the input can be labelled with: a production of the grammar, captured text, or an
action that the construction of the query takes at that point. -/
namespace TableLang

inductive Production where
  | query
  | select
  | selectKey
  | limit
  | whereSection
  | whereClause
  | groupClause (c : Connective)
  | predicateClause
  | predicateName
  | predicateValue
  | predicateRowKey
  | predicateKey
  | predicateLiteral
  | positiveInteger
  | key
  | escape
  | requiredSpacing
  | spacing
deriving DecidableEq

inductive Action where
  | chooseSelect
  | nameTable
  | setLimit
  | openRoot
  | enterClause
  | leaveClause
  | becomePredicate
  | becomeGroup (c : Connective)
  | nameComparison
  | useRowKey
  | addKey
  | addLiteral
deriving DecidableEq

/-- What a token says about its span. `blank` is the label of a slot not yet used. -/
inductive Label where
  | blank
  | production (p : Production)
  | text
  | action (a : Action)
deriving DecidableEq

namespace Production

def all : List Production := [
  query, select, selectKey, limit, whereSection, whereClause, groupClause .and, groupClause .or,
  predicateClause, predicateName, predicateValue, predicateRowKey, predicateKey,
  predicateLiteral, positiveInteger, key, escape, requiredSpacing, spacing]

def name : Production → String
  | query => "Query"
  | select => "Select"
  | selectKey => "SelectKey"
  | limit => "Limit"
  | whereSection => "Where"
  | whereClause => "WhereClause"
  | groupClause .and => "AndClause"
  | groupClause .or => "OrClause"
  | predicateClause => "PredicateClause"
  | predicateName => "Predicate"
  | predicateValue => "PredicateValue"
  | predicateRowKey => "PredicateRowKey"
  | predicateKey => "PredicateKey"
  | predicateLiteral => "PredicateLiteralValue"
  | positiveInteger => "PositiveInteger"
  | key => "Key"
  | escape => "Escape"
  | requiredSpacing => "MustSpacing"
  | spacing => "Spacing"

end Production

namespace Action

def all : List Action := [
  chooseSelect, nameTable, setLimit, openRoot, enterClause, leaveClause, becomePredicate,
  becomeGroup .and, becomeGroup .or, nameComparison, useRowKey, addKey, addLiteral]

def name : Action → String
  | chooseSelect => "ActionAddSelect"
  | nameTable => "ActionSetTableName"
  | setLimit => "ActionSetLimit"
  | openRoot => "ActionInitWhere"
  | enterClause => "ActionPushWhere"
  | leaveClause => "ActionPopWhere"
  | becomePredicate => "ActionInitPredicate"
  | becomeGroup .and => "ActionInitAndClause"
  | becomeGroup .or => "ActionInitOrClause"
  | nameComparison => "ActionSetPredicateCommand"
  | useRowKey => "ActionUsePredicateRowKey"
  | addKey => "ActionAddPredicateKey"
  | addLiteral => "ActionAddPredicateLiteral"

end Action

namespace Label

def all : List Label :=
  blank :: Production.all.map production ++ text :: Action.all.map action

def name : Label → String
  | blank => "Unknown"
  | production p => p.name
  | text => "Text"
  | action a => a.name

def isAction : Label → Bool
  | action _ => true
  | _ => false

def ofName? (name : String) : Option Label :=
  all.find? (·.name = name)

def shown (highlight : Bool) (l : Label) : String :=
  if highlight then "\x1b[34m" ++ l.name ++ "\x1b[m" else l.name

end Label
end TableLang
