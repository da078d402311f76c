import Docsmith.Failure
import Docsmith.Files.Path

namespace Docsmith

/-!
# Directories

A directory is a list of entries, each a file with its content or a directory.

* `Entry`: a file or a directory.
* `FileTree`: the entries of a directory.
* `FileTree.read`, `FileTree.write`, `FileTree.makeDir`: access by the names along a path, with the
  reason when the file system refuses.
* `FileTree.ofFiles`: the directory that holds some files.
* `FileTree.files`: every file below a directory.
-/

/-- A file with its content, or a directory with its entries. -/
inductive Entry where
  | file (name : String) (content : Bytes)
  | dir (name : String) (entries : List Entry)

/-- The name of an entry. -/
def Entry.name : Entry → String
  | file name _ => name
  | dir name _ => name

/-- The entries of a directory. -/
abbrev FileTree := List Entry

namespace FileTree

/-- The entry of a name. -/
def entry? (t : FileTree) (name : String) : Option Entry := t.find? (·.name == name)

/-- Puts an entry in the place of the one with its name, or at the end. -/
def put (e : Entry) : FileTree → FileTree
  | [] => [e]
  | old :: rest => if old.name == e.name then e :: rest else old :: put e rest

/-- The content of the file at a path. -/
def read : List String → FileTree → Except OsReason Bytes
  | [], _ => .error .isDirectory
  | [name], t =>
    match entry? t name with
    | some (.file _ content) => .ok content
    | some (.dir _ _) => .error .isDirectory
    | none => .error .notFound
  | name :: rest, t =>
    match entry? t name with
    | some (.dir _ inner) => read rest inner
    | some (.file _ _) => .error .notDirectory
    | none => .error .notFound

/-- There is a file or directory at the path. -/
def contains : List String → FileTree → Bool
  | [], _ => true
  | name :: rest, t =>
    match entry? t name with
    | some (.dir _ inner) => contains rest inner
    | some (.file _ _) => rest.isEmpty
    | none => false

/-- Writes a file into a directory that is there. -/
def write (content : Bytes) : List String → FileTree → Except OsReason FileTree
  | [], _ => .error .isDirectory
  | [name], t =>
    match entry? t name with
    | some (.dir _ _) => .error .isDirectory
    | _ => .ok (put (.file name content) t)
  | name :: rest, t =>
    match entry? t name with
    | some (.dir _ inner) => (write content rest inner).map fun inner => put (.dir name inner) t
    | some (.file _ _) => .error .notDirectory
    | none => .error .notFound

/-- Makes the directories along a path that are not there yet. -/
def makeDir : List String → FileTree → Except OsReason FileTree
  | [], t => .ok t
  | name :: rest, t =>
    match entry? t name with
    | some (.dir _ inner) => (makeDir rest inner).map fun inner => put (.dir name inner) t
    | some (.file _ _) => .error (if rest.isEmpty then .exists else .notDirectory)
    | none => (makeDir rest []).map fun inner => put (.dir name inner) t

/-- The directory below a path. -/
def subtree? : List String → FileTree → Option FileTree
  | [], t => some t
  | name :: rest, t =>
    match entry? t name with
    | some (.dir _ inner) => subtree? rest inner
    | _ => none

/-- A directory with a file at a path; what cannot be written is left out. -/
def withFile (t : FileTree) (path : String) (content : Bytes) : FileTree :=
  let ps := Path.parts path
  match makeDir ps.dropLast t with
  | .error _ => t
  | .ok made =>
    match write content ps made with
    | .error _ => t
    | .ok written => written

/-- A directory with another one at a path. -/
def withDir (t : FileTree) (path : String) : FileTree :=
  match makeDir (Path.parts path) t with
  | .ok made => made
  | .error _ => t

/-- The directory that holds some files and directories. -/
def ofFiles (files : List (String × Bytes)) (dirs : List String) : FileTree :=
  files.foldl (fun t (path, content) => t.withFile path content) (dirs.foldl withDir [])

mutual

/-- Every file of an entry with its path, below a path that ends in a slash or is empty. -/
def filesOf (base : String) : Entry → List (String × Bytes)
  | .file name content => [(base ++ name, content)]
  | .dir name entries => filesBelow (base ++ name ++ "/") entries

/-- Every file of some entries with its path. -/
def filesBelow (base : String) : List Entry → List (String × Bytes)
  | [] => []
  | e :: rest => filesOf base e ++ filesBelow base rest

end

/-- Every file below a directory with its path. -/
def files (t : FileTree) : List (String × Bytes) := filesBelow "" t

end FileTree

end Docsmith
