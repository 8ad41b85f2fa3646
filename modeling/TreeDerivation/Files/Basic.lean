import TreeDerivation.Failure

/-!
# Files

A program reaches files by path through `FileAccess`, which lives in a monad of its caller's choice:
the file system of the machine, or a tree of files that is held as a value (`FileTree`).
-/

namespace TreeDerivation

/-- How files are reached. -/
structure FileAccess (m : Type → Type) where
  /-- The octets of the file at a path. -/
  read : String → m (Except FileFault ByteArray)
  /-- The regular files at or below a path, in any order, each by the names that lead to it from
  there. Links below the path are left out; a link at the path itself is followed to a directory. -/
  list : String → m (Except FileFault (List (List String)))

namespace FileAccess

/-- The text that octets encode. -/
def decode (octets : ByteArray) : Except FileFault String :=
  match String.fromUTF8? octets with
  | some text => .ok text
  | none => .error .notText

/-- The text of the file at a path. -/
def readText {m : Type → Type} [Monad m] (files : FileAccess m) (path : String) :
    m (Except Failure String) := do
  let octets ← files.read path
  return (octets.bind decode).mapError fun fault => Failure.of (.file fault)

end FileAccess

namespace Path

/-- The parts of a path between slashes. -/
def parts (path : String) : List String :=
  path.splitOn "/"

/-- The last part of a path, not counting empty ones and dots. -/
def lastPart? (path : String) : Option String :=
  ((parts path).filter fun part => part ≠ "" ∧ part ≠ ".").getLast?

/-- The ending of the last part of a path: what follows its last dot, unless the part has no dot, or
none but at its start. -/
def extension? (path : String) : Option String :=
  match lastPart? path with
  | none | some ".." => none
  | some part =>
    match (part.splitOn ".").reverse with
    | last :: first :: others => if first = "" ∧ others = [] then none else some last
    | _ => none

/-- The path that leads from a directory through the given names. -/
def below (directory : String) (names : List String) : String :=
  names.foldl (fun path name => if path.endsWith "/" then path ++ name else path ++ "/" ++ name)
    directory

/-- Orders the files of a directory: at each level by name, a directory where its name stands. -/
def sort (files : List (List String)) : List (List String) :=
  files.mergeSort fun a b => (compareOfLessAndEq a b).isLE

end Path

end TreeDerivation
