import Docsmith.Source.Bytes

namespace Docsmith.Bytes

/-!
# Lines of a source

* `lineStart`, `lineEnd`: where the line of an offset begins, and where the next one does.
* `indentOf`: the white space between the start of the line and an offset.
* `lineIndent`: the white space at the start of a line.
* `startsLine`: nothing but white space stands before an offset on its line.
* `removalRange`: the stretch to delete so that a piece of code goes without leaving a gap.
-/

/-- The number of bytes up to and including the last line feed. -/
def throughLastNewline (code : Bytes) : Nat :=
  (code.reverse.dropWhile (· != newline)).length

/-- The number of bytes up to and including the first line feed, or all of them. -/
def throughFirstNewline (code : Bytes) : Nat :=
  match code.dropWhile (· != newline) with
  | [] => code.length
  | _ :: rest => code.length - rest.length

/-- The offset of the first byte of the line that holds an offset. -/
def lineStart (code : Bytes) (offset : Int) : Nat :=
  throughLastNewline (code.take (position code.length offset))

/-- The offset after the line feed that ends the line of an offset. -/
def lineEnd (code : Bytes) (offset : Int) : Nat :=
  let n := position code.length offset
  n + throughFirstNewline (code.drop n)

/-- What stands on a line before an offset. -/
def beforeOnLine (code : Bytes) (offset : Int) : Bytes :=
  code.slice (lineStart code offset) offset

/-- The white space before an offset on its line; nothing when code stands there. -/
def indentOf (code : Bytes) (offset : Int) : Bytes :=
  let before := beforeOnLine code offset
  if blank before then before else []

/-- The spaces and tabs at the start of the line of an offset. -/
def lineIndent (code : Bytes) (offset : Int) : Bytes :=
  (code.slice (lineStart code offset) (lineEnd code offset)).takeWhile isIndent

/-- Only white space stands before the offset on its line. -/
def startsLine (code : Bytes) (offset : Int) : Bool :=
  blank (beforeOnLine code offset)

/-- The stretch to delete with a piece of code: its whole lines when it is alone on them, the
    white space before it when it ends its line, and else the piece itself. -/
def removalRange (code : Bytes) (start stop : Int) : Int × Int :=
  let first := lineStart code start
  let last := lineEnd code stop
  let before := code.slice first start
  let after := code.slice stop last
  if blank before && blank after then (first, last)
  else if blank after then ((first + (trimRight before).length : Nat), stop)
  else (start, stop)

end Docsmith.Bytes
