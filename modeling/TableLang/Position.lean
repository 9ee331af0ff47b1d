/-! Lines and columns. Offsets count characters from zero, lines and columns count from one, and
only a line feed starts a new line. Several offsets are located in a single pass over the text. -/
namespace TableLang

structure Position where
  line : Nat
  column : Nat
deriving DecidableEq

namespace Position

def start : Position := ⟨1, 1⟩

def advance (p : Position) (c : Char) : Position :=
  if c = '\n' then ⟨p.line + 1, 1⟩ else ⟨p.line, p.column + 1⟩

def describe (p : Position) : String :=
  "line " ++ toString p.line ++ " column " ++ toString p.column

structure Request where
  offset : Nat
  slot : Nat

def Request.insert (r : Request) : List Request → List Request
  | [] => [r]
  | q :: qs => if r.offset ≤ q.offset then r :: q :: qs else q :: r.insert qs

def requests (offsets : List Nat) : List Request :=
  offsets.zipIdx.foldr (fun o sorted => (Request.mk o.1 o.2).insert sorted) []

def settle (p : Position) (due : List Request) (answers : Array Position) : Array Position :=
  due.foldl (fun out r => out.setIfInBounds r.slot p) answers

/-- Walks the text from offset `i`, which is at `p`, and answers the requests met; what is still
pending at the end of the text gets the place after its last character. The walk stops early once
nothing is pending. -/
def scan (p : Position) (i : Nat) :
    List Char → List Request → Array Position → Array Position
  | [], pending, answers => settle p pending answers
  | c :: cs, pending, answers =>
    let later := pending.dropWhile (·.offset = i)
    let answers := settle p (pending.takeWhile (·.offset = i)) answers
    if later.isEmpty then answers else scan (p.advance c) (i + 1) cs later answers

def ofOffsets (input : List Char) (offsets : List Nat) : List Position :=
  (scan start 0 input (requests offsets) (Array.replicate offsets.length ⟨0, 0⟩)).toList

def ofOffset (input : List Char) (offset : Nat) : Position :=
  (ofOffsets input [offset]).headD start

end Position
end TableLang
