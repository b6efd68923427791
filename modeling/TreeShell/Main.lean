import TreeShell.CommandLine.Run

/-! # The command line program

Reads the files and the input that a run asks for, and carries its effects out. -/

namespace TreeShell.CommandLine

def readFile (path : String) : IO (Except ReadError Text.Bytes) := do
  try
    return .ok (← IO.FS.readBinFile path).data.toList
  catch
    | .noFileOrDirectory .. => return .error .missing
    | .inappropriateType _ 21 _ => return .error .isDirectory
    | .inappropriateType .. => return .error .notADirectory
    | e => return .error (.other (toString e))

def Effect.perform : Effect → IO Unit
  | .print text => do
    (← IO.getStdout).putStr text
    (← IO.getStdout).flush
  | .complain text => do (← IO.getStderr).putStr text
  | .wait latency => do
    let delay := latency.pick (← IO.rand 0 1000000)
    if delay > 0 then IO.sleep delay.toUInt32

end TreeShell.CommandLine

def main (args : List String) : IO UInt32 := do
  let files ← (TreeShell.CommandLine.filesRead args).mapM fun path =>
    return (path, ← TreeShell.CommandLine.readFile path)
  let host : TreeShell.Host :=
    { read := fun path => (files.lookup path).getD (.error .missing)
      log := fun w => "WARN " ++ w.message ++ " path=" ++ w.path ++ "\n" }
  let input ← if TreeShell.CommandLine.readsInput args then (← IO.getStdin).readBinToEnd
    else pure .empty
  let report := TreeShell.CommandLine.run host args input.data.toList
  report.effects.forM TreeShell.CommandLine.Effect.perform
  return report.code.toUInt32
