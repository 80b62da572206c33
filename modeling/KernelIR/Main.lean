import KernelIR.Command.Run

namespace KernelIR

/-- What the operating system calls an error. -/
def errorText : IO.Error → String
  | .noFileOrDirectory .. => "no such file or directory"
  | .permissionDenied .. => "permission denied"
  | .inappropriateType .. => "is a directory"
  | e => toString e

def isDirectory : IO.Error → Bool
  | .inappropriateType .. => true
  | _ => false

/-- Carries out an action on a file. A directory can be opened for reading; it fails later. -/
def answerOf {α : Type} (reads : Bool) (path : String) (act : IO α) : IO (Except String α) := do
  try
    return .ok (← act)
  catch e =>
    let verb := if reads && isDirectory e then "read " else "open "
    return .error (verb ++ path ++ ": " ++ errorText e)

/-- The files and streams of the process. -/
def console : Command.World IO where
  read path := answerOf true path (IO.FS.readFile path)
  write path text := answerOf false path (IO.FS.writeFile path text)
  out text := do (← IO.getStdout).putStr text
  err text := do (← IO.getStderr).putStr text

end KernelIR

def main (args : List String) : IO UInt32 := do
  let names := ["KERNOPT_DIALECT", "KERNOPT_TRACE", "KERNOPT_DUMP_IR", "KERNOPT_STRIP_MARKERS",
    "KERNOPT_INSERT_PREHEADERS"]
  let values ← names.mapM fun name => return (name, ← IO.getEnv name)
  let status ← KernelIR.Command.run KernelIR.console (fun name => (values.lookup name).join) args
  return status.toUInt32
