import TableLang.Grammar.Expr

/-! The productions of the query language.

A query selects the rows of a table, perhaps filtered by a clause and perhaps limited in number:

    select <key> [where <clause>] [limit <number>]

A clause is a comparison of values or a group of clauses under `and` or `or`. The values of a
comparison are quoted literals, the row's own key `@key`, and keys of entries. -/
namespace TableLang.Grammar
open TableLang.Grammar.Expr

def isSpace (c : Char) : Bool := c = ' ' || c = '\t' || c = '\n'

def isKeyChar (c : Char) : Bool := c.isAlphanum

def isEscapable (c : Char) : Bool :=
  ['a', 'b', 'f', 'n', 'r', 't', 'v', '\\', '?', '"', '\''].contains c

def isLeadingDigit (c : Char) : Bool := c.isDigit && c ≠ '0'

def startsKeyPart : List Char → Bool
  | '\\' :: c :: _ => isEscapable c
  | c :: _ => isKeyChar c
  | [] => false

def spacing : Expr := named .spacing (run isSpace)

def requiredSpacing : Expr := named .requiredSpacing (seq (one isSpace) (run isSpace))

def escape : Expr := named .escape (seq (char '\\') (one isEscapable))

def keyPart : Expr := ifNext '\\' escape (one isKeyChar)

def key : Expr := named .key (seq keyPart (many startsKeyPart keyPart))

def positiveInteger : Expr :=
  named .positiveInteger (seq (one isLeadingDigit) (run Char.isDigit))

def predicateLiteral : Expr :=
  named .predicateLiteral <|
    seqAll [char '\'', capture (run (· ≠ '\'')), char '\'', mark .addLiteral]

def predicateRowKey : Expr :=
  named .predicateRowKey (seqAll [word "@key", mark .useRowKey])

def predicateKey : Expr :=
  named .predicateKey (seqAll [capture key, mark .addKey])

def predicateValue : Expr :=
  named .predicateValue (alt predicateLiteral (alt predicateRowKey predicateKey))

def predicateName : Expr :=
  named .predicateName <|
    seqAll [capture (alt (word Comparison.equal.name) (word Comparison.notEqual.name)),
      mark .nameComparison]

/-- A comparison of one value or more. Blanks may stand before a comma or the closing parenthesis
except after the first value. -/
def predicateClause : Expr :=
  named .predicateClause <|
    seqAll [mark .becomePredicate, predicateName, spacing, char '(', spacing, predicateValue,
      star (seqAll [char ',', spacing, predicateValue, spacing]), char ')']

def groupClause (c : Connective) : Expr :=
  named (.groupClause c) <|
    seqAll [word c.name, mark (.becomeGroup c), spacing, char '(', spacing, clause, spacing,
      star (seqAll [char ',', spacing, clause, spacing]), char ')']

def whereClause : Expr :=
  named .whereClause <|
    seqAll [mark .enterClause, alt predicateClause (alt (groupClause .or) (groupClause .and)),
      mark .leaveClause]

def whereSection : Expr :=
  named .whereSection (seqAll [word "where", mark .openRoot, requiredSpacing, clause])

def limit : Expr :=
  named .limit <|
    seqAll [word "limit", requiredSpacing, capture positiveInteger, mark .setLimit]

def selectKey : Expr := named .selectKey (seqAll [capture key, mark .nameTable])

def select : Expr :=
  named .select <|
    seqAll [word Operation.select.name, requiredSpacing, selectKey,
      opt (seq requiredSpacing whereSection), opt (seq requiredSpacing limit)]

def query : Expr := named .query (seqAll [spacing, select, mark .chooseSelect, finish])

end TableLang.Grammar
