namespace Docsmith

/-!
# Byte sequences and offsets

Source code is a list of bytes, and every position in it is a byte offset.  An offset below zero
counts from the end, and one beyond an end is moved to that end.

* `Bytes.position`: the place that an offset means.
* `Bytes.slice`: the bytes between two offsets.
* `Bytes.isBlank`, `Bytes.blank`: white space among the bytes, which is that of ASCII.
* `Bytes.trimRight`, `Bytes.trimLeft`: without the blanks at one end.
-/

/-- A piece of source code. -/
abbrev Bytes := List UInt8

namespace Bytes

/-- The place in a sequence of `size` bytes that an offset means. -/
def position (size : Nat) (offset : Int) : Nat :=
  if offset < 0 then (offset + size).toNat else min offset.toNat size

/-- The bytes from the place of one offset up to the place of another. -/
def slice (code : Bytes) (start stop : Int) : Bytes :=
  (code.take (position code.length stop)).drop (position code.length start)

/-- The byte is ASCII white space. -/
def isBlank (b : UInt8) : Bool :=
  b == 0x20 || (0x09 ≤ b && b ≤ 0x0d)

/-- The byte is a space or a tab. -/
def isIndent (b : UInt8) : Bool :=
  b == 0x20 || b == 0x09

/-- There are only blanks. -/
def blank (code : Bytes) : Bool :=
  code.all isBlank

/-- The bytes before the trailing blanks. -/
def trimRight (code : Bytes) : Bytes :=
  (code.reverse.dropWhile isBlank).reverse

/-- The line feed. -/
def newline : UInt8 := 0x0a

end Bytes

end Docsmith
