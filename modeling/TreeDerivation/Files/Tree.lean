import TreeDerivation.Files.Basic

/-!
# Trees of files

A tree of files, directories and symbolic links as a value. Paths are resolved as a file system
resolves them: every link on the way is followed, up to forty of them, and only directories have
anything below them. Outside of the tree there are no files.
-/

namespace TreeDerivation

/-- What stands in a directory under a name. -/
inductive FileTree where
  | file (octets : ByteArray)
  | directory (entries : List (String × FileTree))
  | link (target : String)

namespace FileTree

/-- The names and entries of a directory. -/
def entries : FileTree → List (String × FileTree)
  | .directory entries => entries
  | _ => []

/-- Puts an entry where a list of names leads to, making directories on the way. An entry that
stands there already is replaced, but a directory is kept where a directory is put. -/
def insert (entry : FileTree) : List String → FileTree → FileTree
  | [], here =>
    match entry, here with
    | .directory _, .directory entries => .directory entries
    | _, _ => entry
  | name :: names, here =>
    let old := (here.entries.lookup name).getD (.directory [])
    .directory ((name, insert entry names old) :: here.entries.filter fun e => e.1 ≠ name)

/-- The names on a path, without empty ones and dots. -/
def names (path : String) : List String :=
  (Path.parts path).filter fun part => part ≠ "" ∧ part ≠ "."

/-- Puts an entry at a path. -/
def insertAt (tree : FileTree) (path : String) (entry : FileTree) : FileTree :=
  insert entry (names path) tree

/-- Resolves the parts of a path in the directory `here`, which lies in the directories `outer`,
innermost first; around those are empty directories. `links` is the number of links that may still
be followed, `followLast` tells whether the last part is followed, too. -/
def resolveParts (followLast : Bool) (links : Nat) (here : FileTree) (outer : List FileTree) :
    List String → Except FileFault FileTree
  | [] => .ok here
  | part :: rest =>
    if part = "" ∨ part = "." then resolveParts followLast links here outer rest
    else if part = ".." then
      resolveParts followLast links (outer.head?.getD (.directory [])) outer.tail rest
    else
      match here.entries.lookup part with
      | none => .error .notFound
      | some (.directory entries) =>
        resolveParts followLast links (.directory entries) (here :: outer) rest
      | some (.file octets) => if rest = [] then .ok (.file octets) else .error .notDirectory
      | some (.link target) =>
        if rest = [] ∧ ¬ followLast then .ok (.link target)
        else
          match links with
          | 0 => .error .linkLoop
          | links + 1 =>
            if target.startsWith "/" then .error .notFound
            else resolveParts followLast links here outer (Path.parts target ++ rest)
termination_by parts => (links, parts.length)

/-- The entry that a path leads to. -/
def resolve (tree : FileTree) (followLast : Bool) (path : String) : Except FileFault FileTree :=
  if path = "" ∨ path.startsWith "/" then .error .notFound
  else resolveParts followLast 40 tree [] (Path.parts path)

/-- The octets of the file at a path. -/
def read (tree : FileTree) (path : String) : Except FileFault ByteArray :=
  (tree.resolve true path).bind fun entry =>
    match entry with
    | .file octets => .ok octets
    | _ => .error .isDirectory

mutual

/-- The regular files of an entry, each by the names that lead to it. -/
def filesOf : FileTree → List (List String)
  | .file _ => [[]]
  | .directory entries => filesIn entries
  | .link _ => []

/-- The regular files of the entries of a directory. -/
def filesIn : List (String × FileTree) → List (List String)
  | [] => []
  | (name, entry) :: rest => (filesOf entry).map (name :: ·) ++ filesIn rest

end

/-- The regular files at or below a path. A link at the path is followed to a directory; one to a
file is left out. -/
def list (tree : FileTree) (path : String) : Except FileFault (List (List String)) :=
  (tree.resolve false path).bind fun entry =>
    match entry with
    | .link _ =>
      (tree.resolve true path).map fun target =>
        match target with
        | .directory entries => filesIn entries
        | _ => []
    | entry => .ok (filesOf entry)

/-- Access to the files of a tree. -/
def access (tree : FileTree) : FileAccess Id :=
  { read := fun path => tree.read path
    list := fun path => tree.list path }

end FileTree

end TreeDerivation
