import TableLang.Command.Run

/-! The program: checks the query given as an argument or on the standard input. -/
namespace TableLang.Command

def depthVariable : String := "TQ_MAX_DEPTH"

def Response.write (r : Response) : IO UInt32 := do
  (← IO.getStdout).putStr r.output
  (← IO.getStderr).putStr r.errors
  return r.exitCode

end TableLang.Command

def main (args : List String) : IO UInt32 := do
  let ambient ← IO.getEnv TableLang.Command.depthVariable
  match TableLang.Command.Invocation.ofArgs? args ambient with
  | none => TableLang.Command.Response.usage.write
  | some i =>
    let input ← if i.readsInput then (← IO.getStdin).readBinToEnd else pure ByteArray.empty
    (i.run input).write
