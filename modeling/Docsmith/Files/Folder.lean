import Docsmith.Files.Tree

namespace Docsmith

/-!
# Folders

A folder is a place in a directory tree from which files are read and to which they are written.

* `Folder`: the place, and the path by which messages call it.
* `Folder.read`, `Folder.write`: access to the files below it.
* `Store`: whatever files are written to, and `Folder.store`, a folder as a store.
-/

/-- A place in a directory tree, by the names that lead to it, and its path in messages. -/
structure Folder where
  path : String := "."
  names : List String := []
deriving DecidableEq, Repr

namespace Folder

/-- The folder at a path below the current directory. -/
def ofPath (path : String) : Folder := { path := Path.normal path, names := Path.parts path }

/-- A folder below another one. -/
def sub (f : Folder) (path : String) : Folder :=
  { path := Path.join f.path path, names := f.names ++ Path.parts path }

/-- The refusal of the file system with the path that was asked for. -/
def refused {α : Type} (path : String) : Except OsReason α → Except Failure α
  | .ok a => .ok a
  | .error reason => .error (.os reason path)

/-- The content of a file below the folder. -/
def read (f : Folder) (disk : FileTree) (file : String) : Except Failure Bytes :=
  refused (Path.join f.path file) (FileTree.read (f.names ++ Path.parts file) disk)

/-- Writes a file below the folder, with the directories that lead to it. -/
def write (f : Folder) (disk : FileTree) (file : String) (content : Bytes) :
    Except Failure FileTree := do
  let names := f.names ++ Path.parts file
  let path := Path.join f.path file
  let made ← refused (Path.parent path) (FileTree.makeDir names.dropLast disk)
  refused path (FileTree.write content names made)

/-- The files and directories of the folder; none when there is no such directory. -/
def entries (f : Folder) (disk : FileTree) : FileTree := (FileTree.subtree? f.names disk).getD []

end Folder

/-- Whatever files are written to.  Writing may be refused, and what is stored may change then. -/
structure Store (δ : Type) where
  write : δ → String → Bytes → Except Failure Unit × δ

/-- A folder as a store: what is refused leaves the disk as it is. -/
def Folder.store (f : Folder) : Store FileTree where
  write disk file content :=
    match f.write disk file content with
    | .ok disk => (.ok (), disk)
    | .error e => (.error e, disk)

end Docsmith
