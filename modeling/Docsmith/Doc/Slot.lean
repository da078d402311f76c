import Docsmith.Doc.Comment
import Docsmith.Source.Line
import Docsmith.Text.Utf8
import Docsmith.Tree.Node

namespace Docsmith

open Text

/-!
# Documentation slots

A slot is the place in a source where the documentation of a declaration lives.

* `DocSlot`: the stretch of code to replace, and how to write there.
* `leadingComments`: the run of comments directly above a node.
* `lineSlot`, `inlineSlot`: slots for line comments.
* `DocSlot.renderLine`: line comments for a slot.
-/

/-- How documentation is written: as line comments, or as a string literal in a body. -/
inductive DocStyle where
  | line
  | docstring
deriving DecidableEq, Repr

/-- Where the documentation of one declaration lives.  The stretch holds the documentation there is,
    or is the place to put one.  `former` keeps what stood there, `inline` says that code stands
    before the declaration on its line, `follow` is what comes after a string literal, and `clear`
    takes the place of one that is removed. -/
structure DocSlot where
  start : Nat
  stop : Nat
  indent : String
  style : DocStyle
  hasDoc : Bool := false
  former : Bytes := []
  inline : Bool := false
  follow : String := ""
  clear : Option Bytes := none
deriving DecidableEq, Repr

/-- The name under which edits of the slot are kept. -/
def DocSlot.key (s : DocSlot) : String := "doc:" ++ toString s.start

/-- The characters of bytes that are all ASCII. -/
def asciiText (bytes : Bytes) : String :=
  String.ofList (bytes.map fun b => Char.ofNat b.toNat)

/-- Each node with the siblings before it, the nearest first. -/
def withBefore : List Node → List Node → List (List Node × Node)
  | _, [] => []
  | before, n :: rest => (before, n) :: withBefore (n :: before) rest

/-- The comments among the siblings before a row, the nearest first, that end on the row directly
    above what follows them and begin their line; in source order. -/
def leadingFrom (code : Bytes) (row : Nat) : List Node → List Node
  | [] => []
  | c :: before =>
    if c.isComment && c.lastRow + 1 == row && code.startsLine c.start then
      leadingFrom code c.row before ++ [c]
    else []

/-- The run of comments directly above a node, with no blank line between. -/
def leadingComments (code : Bytes) (before : List Node) (n : Node) : List Node :=
  leadingFrom code n.row (before.filter Node.named)

/-- The slot for line comments above a node. -/
def lineSlot (code : Bytes) (before : List Node) (n : Node) : DocSlot :=
  let indent := asciiText (code.indentOf n.start)
  match leadingComments code before n with
  | [] =>
    let start := code.lineStart n.start
    { start := start, stop := start, indent := indent, style := .line }
  | first :: rest =>
    let start := code.lineStart first.start
    let stop := code.lineEnd ((first :: rest).getLastD first).stop
    { start := start, stop := stop, indent := indent, style := .line, hasDoc := true,
      former := code.slice start stop }

/-- The slot of a node that shares its line with a sibling before it: the white space between the
    two, so that a comment moves the node to a line of its own. -/
def inlineSlot (code : Bytes) (before : List Node) (n : Node) (indent : String) : DocSlot :=
  let start := match before with
    | prev :: _ => prev.stop
    | [] => n.start
  { start := start, stop := n.start, indent := indent, style := .line,
    former := code.slice start n.start, inline := true }

/-- Line comments for a slot.  A blank text clears it: nothing is left of comments above a
    declaration, and what stood between two on one line comes back. -/
def DocSlot.renderLine (s : DocSlot) (marker : String) (text : String) : Bytes :=
  if isBlankText text then if s.inline then s.former else []
  else
    let comment := Doc.lineComment marker.toList s.indent.toList
      (wrapChars Doc.commentWidth text.toList)
    if s.inline then encodeChars ('\n' :: comment ++ s.indent.toList) else encodeChars comment

end Docsmith
