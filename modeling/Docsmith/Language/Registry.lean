import Docsmith.Files.Path
import Docsmith.Language.Basic

namespace Docsmith

/-!
# Registered languages

* `Languages`: languages by name and by the suffixes of their files.
* `Languages.register`: a later language takes the names and suffixes it shares with an earlier one.
* `Languages.get`, `Languages.forFile?`: the language of a name or of a file.
-/

/-- Languages by name and by suffix, each list in the order in which its keys came up. -/
structure Languages where
  byName : List (String × Language) := []
  byExtension : List (String × Language) := []

namespace Languages

/-- Replaces the language of a key in its place, or adds it at the end. -/
def put (key : String) (language : Language) : List (String × Language) → List (String × Language)
  | [] => [(key, language)]
  | (k, old) :: rest =>
    if k == key then (k, language) :: rest else (k, old) :: put key language rest

/-- The language of a key. -/
def lookup (entries : List (String × Language)) (key : String) : Option Language :=
  (entries.find? (·.1 == key)).map (·.2)

/-- The keys, sorted. -/
def keys (entries : List (String × Language)) : List String :=
  (entries.map (·.1)).mergeSort fun a b => a ≤ b

/-- Adds a language. -/
def register (r : Languages) (l : Language) : Languages :=
  { byName := put l.name l r.byName
    byExtension := l.extensions.foldl (fun entries x => put x l entries) r.byExtension }

/-- Some languages, the last one winning. -/
def ofList (ls : List Language) : Languages := ls.foldl register {}

/-- The languages that are known from the start. -/
def default : Languages := ofList [.go, .python]

/-- The language of a name. -/
def get (r : Languages) (name : String) : Except Failure Language :=
  match lookup r.byName name with
  | some l => .ok l
  | none => .error (.unknownLanguage name)

/-- The language of a file by its suffix. -/
def forFile? (r : Languages) (path : String) : Option Language :=
  lookup r.byExtension (Path.extension path)

/-- The names, sorted. -/
def names (r : Languages) : List String := keys r.byName

/-- The suffixes, sorted. -/
def extensions (r : Languages) : List String := keys r.byExtension

/-- There is a language of this name. -/
def contains (r : Languages) (name : String) : Bool := (lookup r.byName name).isSome

end Languages

end Docsmith
