import Docsmith.Failure
import Docsmith.Source.Edit
import Docsmith.Source.Line
import Docsmith.Tree.Node

namespace Docsmith

/-!
# Parsed sources

* `SourceTree`: a source with its tree and the edits that wait to be made.
* `SourceTree.textOf`: the code of a node as text.
* `SourceTree.render`: the source with the edits made.
-/

/-- A source, its tree and its pending edits. -/
structure SourceTree where
  code : Bytes
  root : Node
  edits : EditSet := {}

namespace SourceTree

/-- The code between two offsets as text. -/
def textBetween (code : Bytes) (start stop : Int) : Except Failure String :=
  match Text.decode (code.slice start stop) with
  | .ok s => .ok s
  | .error fault => .error (.notText fault)

/-- The code of a node as text; nothing for no node. -/
def textOf (t : SourceTree) : Option Node → Except Failure String
  | none => .ok ""
  | some n => textBetween t.code n.start n.stop

/-- Records an edit. -/
def edit (t : SourceTree) (key : String) (start stop : Int) (text : Bytes) : SourceTree :=
  { t with edits := t.edits.edit key ⟨start, stop, text⟩ }

/-- The source with its edits made. -/
def render (t : SourceTree) : Bytes := t.edits.render t.code

/-- The tree after its edits: read anew when there are any. -/
def reparse (parse : Bytes → Except Failure SourceTree) (t : SourceTree) :
    Except Failure SourceTree :=
  if t.edits.dirty then parse t.render else .ok t

/-- Deletes every comment. -/
def dropComments (t : SourceTree) : SourceTree :=
  (t.root.findAll ["comment"]).foldl (fun t c =>
    let (start, stop) := t.code.removalRange c.start c.stop
    t.edit ("comment:" ++ toString start) start stop []) t

end SourceTree

end Docsmith
