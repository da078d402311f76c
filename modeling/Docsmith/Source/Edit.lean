import Docsmith.Source.Bytes

namespace Docsmith

/-!
# Edits of a source

A change replaces the bytes between two offsets.  Changes are collected under keys, a later one
under the same key taking the place of the earlier one, and applied together.

* `Edit`: one replacement.
* `EditSet`: replacements under keys, in the order in which the keys came up.
* `EditSet.ordered`: the replacements by start, wider ones first.
* `keptFrom`: those that begin where the one kept before has ended, or later.
* `Bytes.applyEdits`: the source with a list of ordered replacements made.
* `EditSet.render`: the source with all replacements made.
-/

/-- The bytes from `start` up to `stop` become `text`. -/
structure Edit where
  start : Int
  stop : Int
  text : Bytes
deriving DecidableEq, Repr

/-- The edit comes no later than the other: it starts earlier, or at the same place and is no
    shorter. -/
def Edit.before (a b : Edit) : Bool :=
  a.start < b.start || (a.start == b.start && b.stop ≤ a.stop)

/-- Replacements under keys; each key stands once. -/
structure EditSet where
  entries : List (String × Edit) := []

namespace EditSet

/-- Replaces the entry of a key in its place, or adds it at the end. -/
def put (key : String) (e : Edit) : List (String × Edit) → List (String × Edit)
  | [] => [(key, e)]
  | (k, old) :: rest => if k == key then (key, e) :: rest else (k, old) :: put key e rest

/-- Records a replacement under a key. -/
def edit (s : EditSet) (key : String) (e : Edit) : EditSet :=
  ⟨put key e s.entries⟩

/-- The replacement under a key. -/
def pending? (s : EditSet) (key : String) : Option Edit :=
  (s.entries.find? (·.1 == key)).map (·.2)

/-- There is a replacement. -/
def dirty (s : EditSet) : Bool :=
  !s.entries.isEmpty

/-- The replacements by start, the wider first, and then in the order of their keys. -/
def ordered (s : EditSet) : List Edit :=
  (s.entries.map (·.2)).mergeSort Edit.before

end EditSet

/-- The edits of an ordered list that do not begin inside the one kept before. -/
def keptFrom : Int → List Edit → List Edit
  | _, [] => []
  | pos, e :: rest => if e.start < pos then keptFrom pos rest else e :: keptFrom e.stop rest

/-- The code from an offset on, with the edits of an ordered list made that do not begin inside
    the one made before. -/
def Bytes.applyEdits (code : Bytes) : Int → List Edit → Bytes
  | pos, [] => code.slice pos code.length
  | pos, e :: rest =>
    if e.start < pos then code.applyEdits pos rest
    else code.slice pos e.start ++ e.text ++ code.applyEdits e.stop rest

/-- The code with every replacement made. -/
def EditSet.render (s : EditSet) (code : Bytes) : Bytes :=
  code.applyEdits 0 s.ordered

end Docsmith
