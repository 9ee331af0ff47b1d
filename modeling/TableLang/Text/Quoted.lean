import TableLang.Text.Characters

/-! Text as it is written out: several lines, each closed by a line end, and quoted text as it
stands in messages, with delimiters around it, a backslash before what would be read wrongly, and
the code point in place of what cannot be shown. Quoted text never holds a raw line end. -/
namespace TableLang.Text

def ofLines (lines : List String) : String :=
  String.join (lines.map (· ++ "\n"))

def codePoint (c : Char) : List Char :=
  ['\\', 'u', '\x7b'] ++ Nat.toDigits 16 c.toNat ++ ['\x7d']

def escaped (delimiter c : Char) : List Char :=
  if c = '\x00' then ['\\', '0']
  else if c = '\t' then ['\\', 't']
  else if c = '\r' then ['\\', 'r']
  else if c = '\n' then ['\\', 'n']
  else if c = '\\' then ['\\', '\\']
  else if c = delimiter then ['\\', delimiter]
  else if isPrintable c then [c]
  else codePoint c

def quoted (cs : List Char) : String :=
  String.ofList ('"' :: cs.flatMap (escaped '"') ++ ['"'])

def quotedChar (c : Char) : String :=
  String.ofList ('\'' :: escaped '\'' c ++ ['\''])

end TableLang.Text
