import Docsmith.Identifier
import Docsmith.Language.Basic
import Docsmith.Text.Order

namespace Docsmith

/-!
# Symbols without documentation

* `Finding`: a symbol of a file.
* `Finding.before`: the order in which findings are reported.
* `FindOptions`: which symbols count.
* `FindOptions.wants`, `FindOptions.find`: the findings of one source.
-/

/-- A symbol of a file, with its description and language. -/
structure Finding where
  file : String
  identifier : String
  target : String := ""
  language : String := ""
deriving DecidableEq, Repr

namespace Finding

/-- The finding as people write it. -/
def text (f : Finding) : String :=
  if f.file.isEmpty then f.identifier else f.file ++ "@" ++ f.identifier

/-- The fields in the order in which they are compared. -/
def key (f : Finding) : List String := [f.file, f.identifier, f.target, f.language]

/-- The first finding comes no later than the second. -/
def before (a b : Finding) : Bool := Text.inOrder a.key b.key

/-- The findings in order. -/
def sort (fs : List Finding) : List Finding := fs.mergeSort before

end Finding

/-- The description of a declaration for people. -/
def Declaration.target (d : Declaration) : String :=
  match d.kind with
  | .interfaceMethod => "interface method '" ++ d.name ++ "' of '" ++ d.owner ++ "'"
  | _ => Identifier.target d.identifier

/-- Whether documented symbols and tests count, too. -/
structure FindOptions where
  includeDocumented : Bool := false
  includeTests : Bool := false

namespace FindOptions

/-- The declaration counts: it is exported, and neither a test nor documented unless asked for. -/
def wants (o : FindOptions) (d : Declaration) : Bool :=
  d.exported && (!d.test || o.includeTests) && (!d.documented || o.includeDocumented)

/-- Each declaration unless its identifier came up before. -/
def firstOfEach (seen : List String) : List Declaration → List Declaration
  | [] => []
  | d :: rest =>
    if seen.contains d.identifier then firstOfEach seen rest
    else d :: firstOfEach (d.identifier :: seen) rest

/-- The findings among declarations, sorted by identifier. -/
def among (o : FindOptions) (language file : String) (ds : List Declaration) : List Finding :=
  ((firstOfEach [] (ds.filter o.wants)).map fun d =>
    { file := file, identifier := d.identifier, target := d.target,
      language := language : Finding })
    |>.mergeSort fun a b => a.identifier ≤ b.identifier

/-- The findings of a source, sorted by identifier. -/
def find (o : FindOptions) (l : Language) (code : Bytes) (file : String) :
    Except Failure (List Finding) := do
  let tree ← l.parse code
  return o.among l.name file (← l.declarations tree)

end FindOptions

end Docsmith
