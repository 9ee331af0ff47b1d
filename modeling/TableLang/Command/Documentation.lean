import TableLang.Command.Check
import TableLang.Text.Quoted

/-! The texts of the built-in documentation, and the names under which they are found. -/
namespace TableLang.Command

inductive Category where
  | queryShape
  | clauses
  | predicates
  | limits
  | errors
deriving DecidableEq

namespace Documentation
open Text

def overview : String := ofLines [
  "TQ DOCUMENTATION",
  "",
  "tq checks and compiles table queries. A query names a table, optionally",
  "filters its rows with a where clause, and optionally caps the number of",
  "rows returned.",
  "",
  "DOCUMENTATION CATEGORIES",
  "",
  "  syntax            Query shape, table keys, escapes, and whitespace",
  "  where             Where clauses and nested and()/or() groups",
  "  predicates        str_eq / str_neq and their argument forms",
  "  limit             Row limits",
  "  errors            Reading syntax and compile errors",
  "",
  "QUICK REFERENCE",
  "",
  "  select <table>                      Select every row of a table",
  "  select <table> where <clause>       Filter rows",
  "  select <table> limit <n>            Cap the row count (n >= 1)",
  "  and(<clause>, <clause>, ...)        All clauses must hold",
  "  or(<clause>, <clause>, ...)         Any clause must hold",
  "  str_eq(<value>, <value>, ...)       Values are equal",
  "  str_neq(<value>, <value>, ...)      Values differ",
  "  @key                                The row key",
  "  'text'                              A literal",
  "",
  "Run 'tq doc <category>' for detailed documentation.",
  "Run 'tq onboard' for an interactive tutorial."]

def queryShape : String := ofLines [
  "SYNTAX - Query Shape",
  "",
  "Every query is a select. The where section comes before the limit section",
  "and both are optional.",
  "",
  "  select <table> [where <clause>] [limit <n>]",
  "",
  "TABLE KEYS",
  "",
  "A key is one or more ASCII letters, digits, or escape sequences.",
  "",
  "  select Foo",
  "  select table42",
  "  select my\\tkey",
  "",
  "ESCAPES",
  "",
  "A backslash followed by one of  a b f n r t v \\ ? \" '  is part of the key.",
  "The escape is kept as written; it is not translated.",
  "",
  "WHITESPACE",
  "",
  "Spaces, tabs, and newlines separate words. Leading whitespace is allowed,",
  "trailing whitespace after the last word is not.",
  "",
  "  tq check 'select Foo'              valid",
  "  tq check '  select Foo'            valid",
  "  tq check 'select Foo '             error: unexpected end of input",
  "",
  "KEYWORDS",
  "",
  "select, where, limit, and, or, str_eq, and str_neq are lowercase and exact."]

def clauses : String := ofLines [
  "WHERE - Filtering Rows",
  "",
  "A where section holds exactly one clause. A clause is a predicate or a",
  "group of clauses.",
  "",
  "  select Foo where str_eq(@key, 'abc')",
  "",
  "GROUPS",
  "",
  "and() holds when every inner clause holds. or() holds when any inner clause",
  "holds. Both take one or more clauses separated by commas, and nest freely.",
  "",
  "  select Foo where and(str_eq(@key, 'a'), str_neq(name, 'b'))",
  "  select Foo where or(str_eq(@key, 'a'), and(str_eq(x, 'b'), str_eq(y, 'c')))",
  "",
  "Whitespace is allowed around the parentheses and commas of a group.",
  "",
  "NESTING",
  "",
  "Groups nest up to 100 levels by default. Deeper queries are rejected with",
  "\"nesting too deep\". Raise or lower the bound with --max-depth or the",
  "TQ_MAX_DEPTH environment variable.",
  "",
  "  tq check --max-depth 8 'select Foo where and(and(str_eq(a, b)))'"]

def predicates : String := ofLines [
  "PREDICATES - Comparing Values",
  "",
  "  str_eq(<value>, <value>, ...)      all values are equal",
  "  str_neq(<value>, <value>, ...)     values are not equal",
  "",
  "ARGUMENT FORMS",
  "",
  "  @key          the key of the row being tested",
  "  name          the value stored under a column key",
  "  'text'        a literal; may be empty, may not contain a single quote",
  "",
  "Arguments are separated by commas. Whitespace may follow a comma and may",
  "precede the closing parenthesis.",
  "",
  "  select Foo where str_eq(@key, 'abc')",
  "  select Foo where str_neq(owner, 'root', '')",
  "",
  "The first argument must be followed directly by a comma or the closing",
  "parenthesis:",
  "",
  "  str_eq(@key, 'a')        valid",
  "  str_eq(@key , 'a')       error",
  "",
  "Any other name in predicate position is rejected:",
  "",
  "  tq check \"select Foo where bogus(@key, 'a')\"",
  "  => parse error near Predicate ..."]

def limits : String := ofLines [
  "LIMIT - Capping Rows",
  "",
  "  select Foo limit 10",
  "  select Foo where str_eq(@key, 'a') limit 1",
  "",
  "The limit is a positive integer without leading zeros. A query without a",
  "limit returns every row; the compiled form records that as limit 0.",
  "",
  "  limit 0          parse error near PositiveInteger",
  "  limit 007        parse error",
  "  limit 99999999999999999999",
  "                   compile error: the limit must fit in 64 bits"]

def errors : String := ofLines [
  "ERRORS - Reading Diagnostics",
  "",
  "SYNTAX ERRORS",
  "",
  "A syntax error names the innermost rule that was being matched at the point",
  "the input was read furthest, the span from that rule's start to the",
  "offending character, the text of that span, and the character found.",
  "",
  "  tq check \"select Foo where str_eq(@key, 'abc'\"",
  "  => parse error near PredicateClause (line 1 column 18 - line 1 column 36):",
  "     \"str_eq(@key, 'abc'\", unexpected end of input",
  "",
  "Lines and columns start at 1. --color highlights the rule name.",
  "",
  "COMPILE ERRORS",
  "",
  "Compile errors describe the path to the problem, outermost first:",
  "",
  "  Compile error: select compile failed: convert limit '99999999999999999999'",
  "  failed: number too large to fit in target type",
  "",
  "EXIT STATUS",
  "",
  "  0    query is valid",
  "  1    syntax error, compile error, or no input"]

end Documentation

namespace Category

def all : List Category := [queryShape, clauses, predicates, limits, errors]

def names : Category → List String
  | queryShape => ["syntax", "select"]
  | clauses => ["where", "clauses", "where_clauses"]
  | predicates => ["predicates", "predicate", "str_eq", "str_neq"]
  | limits => ["limit", "limits"]
  | errors => ["errors", "error"]

/-- A name as it is looked up: with small letters, and with `_` for `-`. Only ASCII capitals matter,
since no other capital has a small form that occurs in a name. -/
def normalized (name : String) : String :=
  name.map fun c => if c = '-' then '_' else c.toLower

def ofName? (name : String) : Option Category :=
  all.find? fun c => c.names.contains (normalized name)

def text : Category → String
  | queryShape => Documentation.queryShape
  | clauses => Documentation.clauses
  | predicates => Documentation.predicates
  | limits => Documentation.limits
  | errors => Documentation.errors

def lookup (name : String) : Except CommandError Category :=
  match ofName? name with
  | some c => .ok c
  | none => .error (.unknownCategory name)

end Category
end TableLang.Command
