import Docsmith.Grammar.Read
import Docsmith.Source.Bytes
import Docsmith.Text.Utf8
import Docsmith.Text.Word

namespace Docsmith.Grammar

/-!
# Places in a source

A place is what is left to read together with its offset and row.  Scanners measure how many bytes
at the head of what is left form a token, and a token is cut off by moving on that many bytes.

* `Place.origin`, `Place.advance`: the beginning of a source, and the place some bytes further on.
* `Place.leaf`: the node of the next bytes.
* `startsWith`, `longestOf`: fixed texts at the head.
* `nameLength`: the length of a name at the head.
* `lineLength`: the bytes up to the end of the line.
* `digitsLength`: digits with single underscores between them.
-/

/-- A place in a source: what is left to read, the offset and row of its first byte, and the length
    of the whole source, which bounds the steps of every scanner. -/
structure Place where
  rest : Bytes
  offset : Nat
  row : Nat
  limit : Nat

/-- The beginning of a source. -/
def Place.origin (code : Bytes) : Place := ⟨code, 0, 0, code.length⟩

/-- The place some bytes further on. -/
def Place.advance : Nat → Place → Place
  | 0, p => p
  | _ + 1, ⟨[], offset, row, limit⟩ => ⟨[], offset, row, limit⟩
  | n + 1, ⟨b :: rest, offset, row, limit⟩ =>
    advance n ⟨rest, offset + 1, if b == Bytes.newline then row + 1 else row, limit⟩

/-- The node of the next `size` bytes. -/
def Place.leaf (p : Place) (kind : String) (named : Bool) (size : Nat) : Node :=
  let q := p.advance size
  .mk { kind := kind, named := named, extent := ⟨p.offset, q.offset, p.row, q.row⟩ } []

/-- The bytes begin with the others. -/
def startsWith : Bytes → Bytes → Bool
  | [], _ => true
  | _ :: _, [] => false
  | a :: as, b :: bs => a == b && startsWith as bs

/-- The longest of some texts at the head of the bytes. -/
def longestOf (texts : List String) (bytes : Bytes) : Option String :=
  texts.foldl (fun best t =>
    if startsWith (Text.encode t) bytes
        && (match best with | some b => b.utf8ByteSize < t.utf8ByteSize | none => true)
    then some t else best) none

/-- The number of bytes, over whole characters, that go on a name.  `skip` bytes belong to the
    character before. -/
def nameRestLength : Nat → Bytes → Nat
  | _, [] => 0
  | skip + 1, _ :: rest => nameRestLength skip rest + 1
  | 0, a :: rest =>
    match Text.Rune.read a rest with
    | .char code size => if Text.isNameRest code then nameRestLength (size - 1) rest + 1 else 0
    | .fault _ _ => 0

/-- The length of the name at the head, zero when there is none. -/
def nameLength : Bytes → Nat
  | [] => 0
  | a :: rest =>
    match Text.Rune.read a rest with
    | .char code size => if Text.isNameStart code then nameRestLength (size - 1) rest + 1 else 0
    | .fault _ _ => 0

/-- The number of bytes before the line feed or the end; a zero byte ends the line too. -/
def lineLength (bytes : Bytes) : Nat :=
  (bytes.takeWhile fun b => b != Bytes.newline && b != 0).length

/-- The number of leading bytes of a class. -/
def runLength (p : UInt8 → Bool) (bytes : Bytes) : Nat :=
  (bytes.takeWhile p).length

/-- The byte is a decimal digit. -/
def isDigit (b : UInt8) : Bool := 0x30 ≤ b && b ≤ 0x39

/-- The byte is a hexadecimal digit. -/
def isHexDigit (b : UInt8) : Bool :=
  isDigit b || (0x61 ≤ b && b ≤ 0x66) || (0x41 ≤ b && b ≤ 0x46)

/-- The number of bytes in a run of digits of a class with single underscores between them. -/
def digitsLength (digit : UInt8 → Bool) : Bytes → Nat
  | [] => 0
  | a :: rest =>
    if digit a then
      match rest with
      | b :: c :: more =>
        if b == 0x5f && digit c then digitsLength digit (c :: more) + 2
        else digitsLength digit (b :: c :: more) + 1
      | rest => digitsLength digit rest + 1
    else 0

/-- The bracket that closes an opening one. -/
def closerOf (b : UInt8) : Option UInt8 :=
  if b == 0x28 then some 0x29
  else if b == 0x5b then some 0x5d
  else if b == 0x7b then some 0x7d
  else none

/-- The byte closes a bracket. -/
def isCloser (b : UInt8) : Bool := b == 0x29 || b == 0x5d || b == 0x7d

/-- What a reader remembers of the tokens before a place to report an error there: the row of the
    last token, whether it ended a statement, and the open brackets with their rows. -/
structure Trail where
  lastRow : Nat := 0
  ended : Bool := true
  opened : List (UInt8 × Nat) := []

/-- The trail after one more token. -/
def Trail.push (t : Trail) (p : Place) (size : Nat) (ended : Bool) : Trail :=
  let row := (p.advance size).row
  let opened := match p.rest with
    | b :: _ =>
      if size != 1 then t.opened
      else match closerOf b with
        | some c => (c, p.row) :: t.opened
        | none => if isCloser b then t.opened.drop 1 else t.opened
    | [] => t.opened
  ⟨if ended then p.row else row, ended, opened⟩

/-- The report of a token refused at a place. -/
def Trail.refuse (t : Trail) (p : Place) : Reach :=
  { offset := p.offset
    row := p.row
    lastRow := t.lastRow
    afterTerminator := t.ended
    openRow := match t.opened with
      | (c, row) :: _ => if p.rest.contains c then none else some row
      | [] => none }

end Docsmith.Grammar
