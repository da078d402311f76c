import Docsmith.Text.Case

namespace Docsmith

/-!
# Paths

A path is written with slashes.  Empty parts and single dots in it mean nothing.

* `Path.parts`: the names along a path.
* `Path.join`: a path below another, without the parts that mean nothing.
* `Path.fileName`, `Path.extension`: the last name, and its last suffix.
-/

namespace Path

/-- The pieces of a text between the places of a character. -/
def splitOn (mark : Char) : List Char → List (List Char)
  | [] => [[]]
  | c :: rest =>
    if c == mark then [] :: splitOn mark rest
    else match splitOn mark rest with
      | piece :: pieces => (c :: piece) :: pieces
      | [] => [[c]]

/-- The names along a path. -/
def parts (path : String) : List String :=
  ((splitOn '/' path.toList).filter fun p => !p.isEmpty && p != ['.']).map String.ofList

/-- The path begins at the root of the file system. -/
def isAbsolute (path : String) : Bool := path.startsWith "/"

/-- A path without the parts that mean nothing; a single dot when none is left. -/
def normal (path : String) : String :=
  let body := "/".intercalate (parts path)
  if isAbsolute path then "/" ++ body else if body.isEmpty then "." else body

/-- A path below another one. -/
def join (base path : String) : String :=
  if isAbsolute path then normal path
  else match parts path with
    | [] => normal base
    | ps =>
      let b := normal base
      if b == "." then "/".intercalate ps
      else if b == "/" then "/" ++ "/".intercalate ps
      else b ++ "/" ++ "/".intercalate ps

/-- The last name of a path. -/
def fileName (path : String) : String := (parts path).getLastD ""

/-- The path without its last name. -/
def parent (path : String) : String :=
  let ps := (parts path).dropLast
  if isAbsolute path then "/" ++ "/".intercalate ps
  else if ps.isEmpty then "." else "/".intercalate ps

/-- The last suffix of the last name with its dot; a dot at the beginning or the end of the name
    begins none. -/
def suffix (path : String) : String :=
  let cs := (fileName path).toList
  let tail := (cs.reverse.takeWhile (· != '.')).reverse
  if tail.isEmpty || tail.length + 1 ≥ cs.length then "" else String.ofList ('.' :: tail)

/-- The suffix in small letters, which tells the language of a file. -/
def extension (path : String) : String := Text.lowerText (suffix path)

end Path

end Docsmith
