import TableLang.Label

/-! Grammar expressions. An expression says which texts it stands for and which tokens they leave.
Sequences, choices and repetitions have their usual meaning; besides, a run of characters of one
class is a single step, and two forms look at the input ahead before they choose. One expression
may refer to another only as `clause`, the nested clause of the language. -/
namespace TableLang.Grammar

inductive Expr where
  | empty
  | one (accepts : Char → Bool)
  | run (accepts : Char → Bool)
  | finish
  /-- The empty text, leaving the token of an action. -/
  | mark (a : Action)
  | seq (first second : Expr)
  | alt (first second : Expr)
  | opt (body : Expr)
  /-- Any number of repetitions, each begun only where `ahead` accepts what is left of the input. -/
  | many (ahead : List Char → Bool) (body : Expr)
  | ifNext (c : Char) (yes no : Expr)
  | named (p : Production) (body : Expr)
  /-- An expression whose text is captured, leaving a text token. -/
  | capture (body : Expr)
  | clause

namespace Expr

def char (c : Char) : Expr := one fun d => d = c

def seqAll : List Expr → Expr
  | [] => empty
  | [e] => e
  | e :: es => seq e (seqAll es)

def word (text : String) : Expr := seqAll (text.toList.map char)

def star (body : Expr) : Expr := many (fun _ => true) body

end Expr
end TableLang.Grammar
