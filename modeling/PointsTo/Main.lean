import PointsTo.Command

/-! The command line. Everything it prints and writes is an `Outcome` of `PointsTo.Command`. -/

namespace PointsTo.Command

/-- The contents of a file, or why it cannot be read. -/
def readContents (path : String) : IO (Except String String) := do
  try
    return .ok (← IO.FS.readFile path)
  catch
    | .noFileOrDirectory .. => return .error "No such file or directory (os error 2)"
    | .permissionDenied .. => return .error "Permission denied (os error 13)"
    | e => return .error (toString e)

/-- Writes the file of an outcome; one that cannot be written is left out. -/
def writeDump (path text : String) : IO Unit := do
  try IO.FS.writeFile path text catch _ => return ()

/-- Prints and writes an outcome. -/
def deliver (outcome : Outcome) : IO UInt32 := do
  if let some (path, text) := outcome.file then writeDump path text
  IO.print outcome.stdout
  IO.eprint outcome.stderr
  return outcome.code.toUInt32

end PointsTo.Command

open PointsTo Command in
/-- Analyses the program of the input file. -/
def main (args : List String) : IO UInt32 := do
  let flags := (← IO.getEnv flagsVariable).getD ""
  match options flags args with
  | .error e => deliver (refuse e)
  | .ok o =>
    match o.input with
    | none => deliver noInput
    | some path => deliver (runOn o path (← readContents path))
