import StepAndRepeat.Session

namespace StepAndRepeat.Session

/-- All bytes that a stream still holds, after those already taken. -/
partial def readToEnd (input : IO.FS.Stream) (taken : ByteArray) : IO ByteArray := do
  let more ← input.read 65536
  if more.isEmpty then return taken else readToEnd input (taken ++ more)

def perform (o : Options) : IO UInt32 := do
  let content ← if o.file.isSome then readToEnd (← IO.getStdin) .empty else pure .empty
  let t := run o content.toList
  for m in t.messages do
    IO.eprintln (String.ofList m)
  IO.print (String.ofList t.output)
  return if t.succeeded then 0 else 1

end StepAndRepeat.Session

def main (arguments : List String) : IO UInt32 := do
  match StepAndRepeat.CommandLine.read (arguments.map String.toList) with
  | .run o => StepAndRepeat.Session.perform o
  | .help =>
    IO.print (String.ofList StepAndRepeat.CommandLine.helpText)
    return 0
  | .usageError =>
    IO.eprint (String.ofList StepAndRepeat.CommandLine.usage)
    return 2
