import TableLang.Command.Check
import TableLang.Command.Documentation
import TableLang.Command.Invocation
import TableLang.Command.Run
import TableLang.Command.Tutorial
import TableLang.Draft.Basic
import TableLang.Draft.Edit
import TableLang.Draft.Script
import TableLang.Grammar.Derivation
import TableLang.Grammar.Expr
import TableLang.Grammar.Rules
import TableLang.Json
import TableLang.Label
import TableLang.Main
import TableLang.Match.Run
import TableLang.Match.State
import TableLang.Operator
import TableLang.ParseError
import TableLang.Position
import TableLang.Proofs.Draft.Build
import TableLang.Proofs.Draft.Script
import TableLang.Proofs.Grammar.Exact
import TableLang.Proofs.Grammar.Follows
import TableLang.Proofs.Grammar.Parse
import TableLang.Proofs.Grammar.Sentence
import TableLang.Proofs.Grammar.Shape
import TableLang.Proofs.Grammar.Written
import TableLang.Proofs.Language
import TableLang.Proofs.Query.Meaning
import TableLang.Proofs.Text.Numeral
import TableLang.Query.Basic
import TableLang.Query.Compile
import TableLang.Query.CompileError
import TableLang.Query.Event
import TableLang.Query.Outline
import TableLang.Query.ToJson
import TableLang.Reading
import TableLang.Row
import TableLang.SyntaxTree
import TableLang.Text.Numeral
import TableLang.Text.Characters
import TableLang.Text.Quoted
import TableLang.Token
import TableLang.Token.Buffer
import TableLang.Tree
import TableLang.Proofs.Draft.Relocation
import TableLang.Proofs.Grammar.Approach
import TableLang.Proofs.Grammar.TooDeep
import TableLang.Proofs.Match.Depth
import TableLang.Proofs.Position
import TableLang.Proofs.Nesting
import TableLang.Proofs.Match.Foresight
import TableLang.Proofs.Match.Pace
import TableLang.Proofs.Diagnosis
import TableLang.Proofs.Draft.Arena
import TableLang.Proofs.Draft.ClauseTree
import TableLang.Proofs.Query.Walk
import TableLang.Proofs.Draft.Sketch
import TableLang.Proofs.Draft.Refinement
import TableLang.Proofs.Query.FirstFault
import TableLang.Proofs.Query.Outline
import TableLang.Proofs.Query.Unambiguous
import TableLang.Proofs.Draft.Builder
import TableLang.Proofs.Query.Redraft
import TableLang.Proofs.Json
import TableLang.Proofs.Query.FromJson
import TableLang.Proofs.Command.Modes
import TableLang.Proofs.SyntaxTree.Derived
import TableLang.Proofs.Query.Visit
import TableLang.Proofs.SyntaxTree.Printed
import TableLang.Proofs.Match.Visits
import TableLang.Proofs.Position.Pass
import TableLang.Proofs.Width
import TableLang.Proofs.Query.Limit
import TableLang.Proofs.Token.Buffer
import TableLang.Proofs.Match.Capacity
import TableLang.Proofs.Match.Mismatches
import TableLang.Proofs.Match.Calls
import TableLang.Proofs.Match.Backtracking
import TableLang.Proofs.Match.Key
import TableLang.Proofs.Match.Distance
import TableLang.Proofs.Match.Termination
