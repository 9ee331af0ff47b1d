import TableLang.Json
import TableLang.Query.Basic

/-! Queries as JSON values. -/
namespace TableLang

def Json.strings (texts : List String) : Json := .arr (texts.map .str)

def Row.toJson (r : Row) : Json :=
  .obj [
    ("entries", .obj (r.entries.toList.map fun e => (e.1, .strings e.2))),
    ("key", .str r.key)]

def Predicate.toJson (p : Predicate) : Json :=
  .obj [
    ("include_row_key", .bool p.usesRowKey),
    ("keys", .strings p.keys),
    ("literals", .strings p.literals),
    ("op_code", .str p.comparison.name)]

namespace Condition

mutual
def toJson : Condition → Json
  | group c parts => .obj [("clauses", .arr (toJsonAll parts)), ("op_code", .str c.name)]
  | predicate p =>
    .obj [("op_code", .str ClauseKind.predicate.name), ("predicate", p.toJson)]

def toJsonAll : List Condition → List Json
  | [] => []
  | c :: cs => toJson c :: toJsonAll cs
end

end Condition

def Selection.toJson (s : Selection) : Json :=
  match s.condition with
  | some c => .obj [("limit", .num s.limit), ("where", c.toJson)]
  | none => .obj [("limit", .num s.limit)]

def Query.toJson (q : Query) : Json :=
  match q.body with
  | .select s =>
    .obj [
      ("op_code", .str Operation.select.name),
      ("select", s.toJson),
      ("table_key", .str q.tableKey)]
  | .join rows =>
    .obj [
      ("join", .obj [("rows", .arr (rows.map Row.toJson))]),
      ("op_code", .str Operation.join.name),
      ("table_key", .str q.tableKey)]

end TableLang
