import TreeDerivation.CommandLine.Program

/-!
# The command line

The outer layer: it gives the program the files of the machine and prints what it answers. A failure
is reported on the standard error stream by its code, message and hint.
-/

namespace TreeDerivation.Main

/-- What an error of the system means for a file. -/
def faultOf : IO.Error → FileFault
  | .noFileOrDirectory .. => .notFound
  | e => .reported (toString e)

/-- Carries out an action on files. -/
def attempt {α : Type} (action : IO α) : IO (Except FileFault α) :=
  try return .ok (← action) catch e => return .error (faultOf e)

/-- The regular files among some entries of a directory and below them. -/
partial def filesBelow (entries : Array IO.FS.DirEntry) : IO (List (List String)) := do
  let mut found : List (List String) := []
  for entry in entries do
    match (← entry.path.symlinkMetadata).type with
    | .dir =>
      let below ← filesBelow (← entry.path.readDir)
      found := found ++ below.map (entry.fileName :: ·)
    | .file => found := found ++ [[entry.fileName]]
    | _ => pure ()
  return found

/-- The regular files at or below a path. -/
def filesAt (top : IO.FS.DirEntry) : IO (List (List String)) := do
  match (← top.root.symlinkMetadata).type with
  | .file => return [[]]
  | .dir => filesBelow (← top.root.readDir)
  | .symlink =>
    match (← top.root.metadata).type with
    | .dir => filesBelow (← top.root.readDir)
    | _ => return []
  | _ => return []

/-- The files of the machine. -/
def machineFiles : FileAccess IO where
  read path := attempt (IO.FS.readBinFile path)
  list path := attempt (filesAt ⟨path, ""⟩)

/-- Whether the terminal shows colours: it says what it is, and nobody asked for none. -/
def showsColor : IO Bool := do
  let terminal ← IO.getEnv "TERM"
  let refused ← IO.getEnv "NO_COLOR"
  return terminal.any (· ≠ "dumb") && refused.isNone

end TreeDerivation.Main

/-- Runs the program on the arguments. -/
def main (args : List String) : IO UInt32 := do
  let outcome ← TreeDerivation.Program.run TreeDerivation.Main.machineFiles
    (← TreeDerivation.Main.showsColor) args
  IO.print outcome.output
  if let some failure := outcome.failure then
    IO.eprintln (failure.kind.code ++ "\n  " ++ failure.message)
    if let some help := failure.help then
      IO.eprintln ("  help: " ++ help)
  return outcome.exitCode.toUInt32
