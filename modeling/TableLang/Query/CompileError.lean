import TableLang.Operator
import TableLang.Text.Numeral

/-! Why a draft is not a query. An error says where in the draft the trouble is, from the outside
in, and ends in the trouble itself. -/
namespace TableLang

inductive CompileError where
  | unknownCommand (command : String)
  | inSelect (cause : CompileError)
  | inJoin (cause : CompileError)
  | badLimit (text : String) (cause : Text.NumeralError)
  | inWhere (cause : CompileError)
  | inGroup (c : Connective) (cause : CompileError)
  | inChild (index : Nat) (cause : CompileError)
  | unsupportedClause (command : String)
  | inPredicate (cause : CompileError)
  | unsupportedComparison (command : String)
  /-- A clause is referred to that is not there. -/
  | missingClause (id : Nat)
deriving DecidableEq

namespace CompileError

def message : CompileError → String
  | unknownCommand command => "no command matching '" ++ command ++ "'"
  | inSelect cause => "select compile failed: " ++ cause.message
  | inJoin cause => "join compile failed: " ++ cause.message
  | badLimit text cause => "convert limit '" ++ text ++ "' failed: " ++ cause.message
  | inWhere cause => "where clause compile failed: " ++ cause.message
  | inGroup c cause => c.name ++ " clause compile failed: " ++ cause.message
  | inChild index cause =>
    "failed compiling child clause " ++ toString index ++ ": " ++ cause.message
  | unsupportedClause command => "unsupported where op-code '" ++ command ++ "'"
  | inPredicate cause => "predicate compile failed: " ++ cause.message
  | unsupportedComparison command => "unsupported predicate '" ++ command ++ "'"
  | missingClause id => "no clause " ++ toString id

def chain : CompileError → List CompileError
  | inSelect cause => inSelect cause :: cause.chain
  | inJoin cause => inJoin cause :: cause.chain
  | inWhere cause => inWhere cause :: cause.chain
  | inGroup c cause => inGroup c cause :: cause.chain
  | inChild index cause => inChild index cause :: cause.chain
  | inPredicate cause => inPredicate cause :: cause.chain
  | e => [e]

def causes (e : CompileError) : List String :=
  e.chain.flatMap fun
    | badLimit text cause => [(badLimit text cause).message, cause.message]
    | other => [other.message]

end CompileError
end TableLang
