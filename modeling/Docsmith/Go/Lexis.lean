import Docsmith.Grammar.Place

namespace Docsmith.Go

open Grammar

/-!
# Tokens of Go

White space and comments may stand before every token.  A line feed is white space too, unless it
can end the statement under way: then it is a token of its own.

* `commentLength`: a line comment or a block comment at the head.
* `numberLength`, `runeLength`, `stringLength`, `rawLength`: literals at the head.
* `Form`, `Terminal`: what a grammar rule may ask for.
* `extras`: the comments before a token.
* `lexis`: how terminals are read.
-/

/-- The length of a block comment after its opening: up to the first star followed by a slash. -/
def blockLength? : Bytes → Option Nat
  | [] => none
  | a :: rest =>
    match a == 0x2a, rest with
    | true, b :: _ => if b == 0x2f then some 2 else (blockLength? rest).map (· + 1)
    | _, _ => (blockLength? rest).map (· + 1)

/-- The length of the comment at the head, zero when there is none. -/
def commentLength : Bytes → Nat
  | a :: b :: rest =>
    if a == 0x2f && b == 0x2f then lineLength (a :: b :: rest)
    else if a == 0x2f && b == 0x2a then
      match blockLength? rest with
      | some n => n + 2
      | none => 0
    else 0
  | _ => 0

/-- An optional underscore and digits of a class. -/
def prefixedDigits (digit : UInt8 → Bool) (bytes : Bytes) : Nat :=
  match bytes with
  | b :: rest =>
    if b == 0x5f then
      let n := digitsLength digit rest
      if n == 0 then 0 else n + 1
    else digitsLength digit bytes
  | [] => 0

/-- The length of an exponent: a marker, an optional sign and digits. -/
def exponentLength (marker : UInt8 → Bool) (bytes : Bytes) : Nat :=
  match bytes with
  | m :: rest =>
    if marker m then
      let sign := match rest with
        | s :: _ => if s == 0x2b || s == 0x2d then 1 else 0
        | [] => 0
      let n := digitsLength isDigit (rest.drop sign)
      if n == 0 then 0 else n + sign + 1
    else 0
  | [] => 0

/-- The byte marks a decimal exponent. -/
def isDecimalMark (b : UInt8) : Bool := b == 0x65 || b == 0x45

/-- The byte marks a binary exponent. -/
def isBinaryMark (b : UInt8) : Bool := b == 0x70 || b == 0x50

/-- The length of a decimal literal with its fraction and exponent. -/
def decimalLength (bytes : Bytes) : Nat :=
  let whole := digitsLength isDigit bytes
  let afterWhole := bytes.drop whole
  let fraction := match afterWhole with
    | b :: rest =>
      if b == 0x2e then
        let n := digitsLength isDigit rest
        if whole == 0 && n == 0 then 0 else n + 1
      else 0
    | [] => 0
  if whole + fraction == 0 then 0
  else whole + fraction + exponentLength isDecimalMark (afterWhole.drop fraction)

/-- The length of a literal with a base marker after its first zero. -/
def basedLength (bytes : Bytes) : Nat :=
  match bytes with
  | z :: m :: rest =>
    if z != 0x30 then 0
    else if m == 0x78 || m == 0x58 then
      let whole := prefixedDigits isHexDigit rest
      let afterWhole := rest.drop whole
      let fraction := match afterWhole with
        | b :: more => if b == 0x2e then digitsLength isHexDigit more + 1 else 0
        | [] => 0
      let power := exponentLength isBinaryMark (afterWhole.drop fraction)
      if power != 0 && (0 < whole || 1 < fraction) then whole + fraction + power + 2
      else if whole == 0 then 0 else whole + 2
    else if m == 0x62 || m == 0x42 then
      let n := prefixedDigits (fun b => b == 0x30 || b == 0x31) rest
      if n == 0 then 0 else n + 2
    else if m == 0x6f || m == 0x4f then
      let n := prefixedDigits (fun b => 0x30 ≤ b && b ≤ 0x37) rest
      if n == 0 then 0 else n + 2
    else 0
  | _ => 0

/-- The length of the number at the head, with the mark of an imaginary one. -/
def numberLength (bytes : Bytes) : Nat :=
  let based := basedLength bytes
  let n := if based == 0 then decimalLength bytes else based
  if n == 0 then 0
  else match bytes.drop n with
    | b :: _ => if b == 0x69 then n + 1 else n
    | [] => n

/-- The length of an escape after its backslash, zero when it is none. -/
def escapeLength : Bytes → Nat
  | [] => 0
  | a :: rest =>
    let hex := runLength isHexDigit rest
    if a == 0x78 then if 2 ≤ hex then 3 else 0
    else if a == 0x75 then if 4 ≤ hex then 5 else 0
    else if a == 0x55 then if 8 ≤ hex then 9 else 0
    else if a == Bytes.newline then 0
    else 1

/-- The size of the character at the head; a byte that belongs to none counts alone. -/
def runeSize : Bytes → Nat
  | [] => 0
  | a :: rest =>
    match Text.Rune.read a rest with
    | .char _ size => size
    | .fault _ _ => 1

/-- The length of a rune literal, zero when there is none. -/
def runeLength (bytes : Bytes) : Nat :=
  match bytes with
  | q :: a :: rest =>
    if q != 0x27 || a == 0x27 then 0
    else
      let inner := if a == 0x5c then
          let octal := runLength (fun b => 0x30 ≤ b && b ≤ 0x37) rest
          if 3 ≤ octal then 4 else escapeLength rest + 1
        else runeSize (a :: rest)
      match (a :: rest).drop inner with
      | c :: _ => if c == 0x27 then inner + 2 else 0
      | [] => 0
  | _ => 0

/-- The length of an interpreted string after its opening quote; `skip` bytes belong to the escape
    under way. -/
def stringRestLength? : Nat → Bytes → Option Nat
  | _, [] => none
  | skip + 1, _ :: rest => (stringRestLength? skip rest).map (· + 1)
  | 0, a :: rest =>
    if a == 0x22 then some 1
    else if a == Bytes.newline then none
    else if a == 0x5c then
      let n := escapeLength rest
      if n == 0 then none else (stringRestLength? n rest).map (· + 1)
    else (stringRestLength? 0 rest).map (· + 1)

/-- The length of the interpreted string at the head, zero when there is none. -/
def stringLength : Bytes → Nat
  | a :: rest => if a == 0x22 then ((stringRestLength? 0 rest).map (· + 1)).getD 0 else 0
  | [] => 0

/-- The length of the raw string at the head, zero when there is none. -/
def rawLength : Bytes → Nat
  | a :: rest =>
    if a == 0x60 then
      let n := runLength (· != 0x60) rest
      if n < rest.length then n + 2 else 0
    else 0
  | [] => 0

/-- What a rule may ask for. -/
inductive Form where
  /-- a name with a fixed text -/
  | word (text : String)
  /-- any name but some -/
  | name (kind : String) (reserved : List String)
  /-- one of some symbols, unless one of the rivals is longer -/
  | symbol (accepted rivals : List String)
  | number
  | rune
  | string
  | raw
  /-- the end of a statement: a line feed or a semicolon -/
  | terminator
  /-- nothing, when the line does not end here -/
  | sameLine
  /-- the end of the source -/
  | finish

/-- A form, and whether it goes on a statement: then a line feed before it may end the statement. -/
structure Terminal where
  form : Form
  continues : Bool := false

/-- The state of the reader. -/
structure State where
  place : Place
  trail : Trail := {}

/-- The byte order mark at the very beginning of a source is skipped. -/
def markLength (p : Place) : Nat :=
  if p.offset == 0 && startsWith [0xef, 0xbb, 0xbf] p.rest then 3 else 0

/-- Skips white space and comments, with or without line feeds; the comments are returned.  The
    first argument bounds the number of steps. -/
def extras (lines : Bool) : Nat → Place → List Node × Place
  | 0, p => ([], p)
  | steps + 1, p =>
    match p.rest with
    | [] => ([], p)
    | b :: _ =>
      if Bytes.isBlank b && (lines || b != Bytes.newline) then extras lines steps (p.advance 1)
      else
        let n := commentLength p.rest
        if n == 0 then ([], p)
        else
          let (more, q) := extras lines steps (p.advance n)
          (p.leaf "comment" true n :: more, q)

/-- The kind, naming and length of what a form finds at the head of the bytes. -/
def Form.scan (bytes : Bytes) : Form → Option (String × Bool × Nat)
  | .word text =>
    let n := nameLength bytes
    if n != 0 && bytes.take n == Text.encode text then some (text, false, n) else none
  | .name kind reserved =>
    let n := nameLength bytes
    if n != 0 && !reserved.any (fun r => Text.encode r == bytes.take n) then some (kind, true, n)
    else none
  | .symbol accepted rivals =>
    match longestOf (accepted ++ rivals) bytes with
    | some t => if accepted.contains t then some (t, false, t.utf8ByteSize) else none
    | none => none
  | .number => some ("number_literal", true, numberLength bytes)
  | .rune => some ("rune_literal", true, runeLength bytes)
  | .string => some ("interpreted_string_literal", true, stringLength bytes)
  | .raw => some ("raw_string_literal", true, rawLength bytes)
  | .terminator =>
    match bytes with
    | b :: _ =>
      if b == Bytes.newline then some ("\n", false, 1)
      else if b == 0x3b then some (";", false, 1)
      else if b == 0 then some ("\x00", false, 1)
      else none
    | [] => none
  | .sameLine => none
  | .finish => none

/-- Reads a terminal.  In a bound context a line feed ends what it follows. -/
def readTerminal (bound : Bool) (t : Terminal) (s : State) : Except Reach (List Node × State) :=
  let lines := match t.form with
    | .terminator => false
    | .sameLine => !bound
    | _ => !(bound && t.continues)
  let start := s.place.advance (markLength s.place)
  let (comments, p) := extras lines start.limit start
  match t.form with
  | .sameLine =>
    match p.rest with
    | b :: _ => if b == Bytes.newline then .error (s.trail.refuse p) else .ok ([], s)
    | [] => .error (s.trail.refuse p)
  | .finish => if p.rest.isEmpty then .ok (comments, { s with place := p })
    else .error (s.trail.refuse p)
  | form =>
    match form.scan p.rest with
    | some (kind, named, size) =>
      if size == 0 then .error (s.trail.refuse p)
      else
        let ended := match form with
          | .terminator => true
          | _ => false
        .ok (comments ++ [p.leaf kind named size], ⟨p.advance size, s.trail.push p size ended⟩)
    | none => .error (s.trail.refuse p)

/-- How the terminals of Go are read; the context says whether a line feed may end a statement. -/
def lexis : Lexis Terminal Bool State where
  read := readTerminal
  offset s := s.place.offset

end Docsmith.Go
