import TableLang.Text.Quoted

/-! The text of the tutorial. -/
namespace TableLang.Command
open Text

def tutorial : String := ofLines [
  "WELCOME TO TQ",
  "",
  "tq checks table queries and shows what they compile to.",
  "",
  "STEP 1: SELECT A TABLE",
  "----------------------",
  "The smallest query names a table.",
  "",
  "  tq check 'select Foo'",
  "  => \x7b\"op_code\": \"select\", \"select\": \x7b\"limit\": 0\x7d, \"table_key\": \"Foo\"\x7d",
  "",
  "STEP 2: CAP THE ROW COUNT",
  "-------------------------",
  "Add a limit to return at most n rows.",
  "",
  "  tq check 'select Foo limit 5'",
  "  => \x7b\"op_code\": \"select\", \"select\": \x7b\"limit\": 5\x7d, \"table_key\": \"Foo\"\x7d",
  "",
  "STEP 3: FILTER ROWS",
  "-------------------",
  "A where clause tests each row. @key is the row key.",
  "",
  "  tq check \"select Foo where str_eq(@key, 'abc')\"",
  "",
  "STEP 4: COMBINE CONDITIONS",
  "--------------------------",
  "Group clauses with and() and or().",
  "",
  "  tq check \"select Foo where or(str_eq(@key, 'a'), str_neq(owner, 'b'))\"",
  "",
  "STEP 5: READ IT BACK",
  "--------------------",
  "--explain prints an outline instead of JSON.",
  "",
  "  tq check --explain \"select Foo where str_eq(@key, 'abc') limit 5\"",
  "  => select Foo",
  "       limit 5",
  "       where",
  "         str_eq row-key literals ['abc']",
  "",
  "STEP 6: SEE THE PARSE",
  "---------------------",
  "--tree prints every rule that matched and the text it covered.",
  "",
  "  tq check --tree 'select Foo'",
  "",
  "STEP 7: PIPE QUERIES IN",
  "-----------------------",
  "Without an argument, tq reads the query from stdin.",
  "",
  "  echo 'select Foo' | tq check --syntax-only",
  "  => Syntax is valid",
  "",
  "NEXT STEPS",
  "",
  "  tq docs               List documentation categories",
  "  tq doc where          Learn about where clauses",
  "  tq doc predicates     Learn about predicate arguments",
  "  tq doc errors         Learn to read diagnostics"]

end TableLang.Command
