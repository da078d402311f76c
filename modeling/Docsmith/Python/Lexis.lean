import Docsmith.Python.Literal

namespace Docsmith.Python

open Grammar

/-!
# Tokens of Python

The layout of lines is part of the language.  The end of a line ends a statement where one may end;
deeper indentation after a colon opens a block, and shallower indentation closes it.  A comment at
least as deep as a block still belongs to it.

* `Gap`: what the white space before a token says about lines and indentation.
* `Mode`: where in a statement a token is read.
* `Form`, `Terminal`: what a grammar rule may ask for.
* `lexis`: how terminals are read.
-/

/-- The white space up to the next token: whether a line ends in it, how deep the token is
    indented, how deep the first comment between is, and the byte at which it stops. -/
structure Gap where
  endsLine : Bool := false
  indent : Nat := 0
  comment : Option Nat := none
  next : Option UInt8 := none

/-- Measures white space.  With `comments`, those on lines of their own are passed over, and one
    on the line under way is no white space.  There is no measure where that comment or a stray
    backslash stands.  `inComment` says that the bytes at the head belong to a comment. -/
def Gap.measure? (comments : Bool) : Bool → Gap → Bytes → Option Gap
  | _, g, [] => some { g with endsLine := true, indent := 0, next := none }
  | true, g, b :: rest => measure? comments (b != Bytes.newline) { g with indent := 0 } rest
  | false, g, b :: rest =>
    if b == Bytes.newline then measure? comments false { g with endsLine := true, indent := 0 } rest
    else if b == 0x20 then measure? comments false { g with indent := g.indent + 1 } rest
    else if b == 0x0d || b == 0x0c then measure? comments false { g with indent := 0 } rest
    else if b == 0x09 then measure? comments false { g with indent := g.indent + 8 } rest
    else if b == 0x23 && comments then
      if g.endsLine then
        measure? comments true { g with comment := some (g.comment.getD g.indent) } rest
      else none
    else if b == 0x5c then
      match rest with
      | [] => some { g with endsLine := true, indent := 0, next := none }
      | c :: more =>
        if c == Bytes.newline then measure? comments false g more
        else if c == 0x0d then
          match more with
          | d :: more => if d == Bytes.newline then measure? comments false g more else none
          | [] => some { g with endsLine := true, indent := 0, next := none }
        else none
    else some { g with next := some b }

/-- Where in a statement a token is read: at the level of the statement, where the end of the line
    may end it; in the header of a compound statement; in brackets; or in brackets after an
    operator, where the closing bracket cannot follow. -/
inductive Mode where
  | line
  | header
  | bracket
  | openBracket
deriving DecidableEq

/-- What a rule may ask for. -/
inductive Form where
  /-- a name with a fixed text -/
  | word (text : String)
  /-- any name but some -/
  | name (reserved : List String)
  /-- one of some symbols, unless one of the rivals is longer -/
  | symbol (accepted rivals : List String)
  /-- three dots as a value -/
  | ellipsis
  | number
  | stringStart
  | stringContent
  | stringEnd
  /-- the conversion marker of an interpolation -/
  | conversion
  /-- the text of a format specifier -/
  | formatText
  /-- the comments before a statement, when one begins here -/
  | begin
  /-- the end of a line that ends a statement -/
  | newline
  /-- the opening and the closing of an indented block -/
  | indent
  | dedent
  /-- nothing, when the line does not end here -/
  | sameLine
  /-- the end of the source -/
  | finish

/-- A form, and whether it goes on a statement: then the end of the line before it may end the
    statement. -/
structure Terminal where
  form : Form
  continues : Bool := false

/-- The state of the reader: the place, the depths of the open blocks and the open literals. -/
structure State where
  place : Place
  depths : List Nat := []
  quotes : List Quote := []
  trail : Trail := {}

/-- The indentation of the innermost open block. -/
def State.depth (s : State) : Nat := s.depths.headD 0

/-- The length of the white space character at the head, zero when there is none. -/
def blankLength (bytes : Bytes) : Nat :=
  match bytes with
  | b :: _ =>
    if Bytes.isBlank b then 1
    else if startsWith [0xef, 0xbb, 0xbf] bytes || startsWith [0xe2, 0x81, 0xa0] bytes
      || startsWith [0xe2, 0x80, 0x8b] bytes then 3
    else 0
  | [] => 0

/-- The length of a backslash that joins two lines, zero when there is none. -/
def jointLength (bytes : Bytes) : Nat :=
  match bytes with
  | a :: rest =>
    if a != 0x5c then 0
    else if rest.take 1 == [0x0a] then 2
    else if rest.take 2 == [0x0d, 0x0a] then 3
    else if rest.isEmpty then 1
    else 0
  | [] => 0

/-- Skips white space characters.  The first argument bounds the number of steps. -/
def skipBlanks : Nat → Place → Place
  | 0, p => p
  | steps + 1, p =>
    let n := blankLength p.rest
    if n == 0 then p else skipBlanks steps (p.advance n)

/-- The comment or line joint after some white space, and the place after it. -/
def extra? (p : Place) : Option (Node × Place) :=
  let q := skipBlanks p.limit p
  match q.rest with
  | b :: _ =>
    if b == 0x23 then
      let n := lineLength q.rest
      some (q.leaf "comment" true n, q.advance n)
    else
      let n := jointLength q.rest
      if n == 0 then none else some (q.leaf "line_continuation" true n, q.advance n)
  | [] => none

/-- The gap closes a block of the given depth: the next token is less indented, and so is a comment
    before it. -/
def Gap.closes (g : Gap) (depth : Nat) : Bool :=
  g.endsLine && g.indent < depth && (g.comment.all (· < depth))

/-- The end of a line breaks an unfinished statement when the next line is less indented than the
    block; a string literal there is taken as its continuation. -/
def Gap.breaks (g : Gap) (depth : Nat) : Bool :=
  g.endsLine && g.indent < depth && !(g.next.any isQuote)

/-- Takes comments and line joints as long as `stop` does not hold at the place.  The first argument
    bounds the number of steps; the result tells whether `stop` held. -/
def extrasUntil (stop : Place → Bool) : Nat → Place → List Node × Place × Bool
  | 0, p => ([], p, false)
  | steps + 1, p =>
    if stop p then ([], p, true)
    else match extra? p with
      | none => ([], p, false)
      | some (n, q) =>
        let (more, r, held) := extrasUntil stop steps q
        (n :: more, r, held)

/-- The gap at a place, comments on lines of their own passed over. -/
def gapOver (p : Place) : Option Gap := Gap.measure? true false {} p.rest

/-- The gap up to the next comment or token. -/
def gapTo (p : Place) : Option Gap := Gap.measure? false false {} p.rest

/-- A mark at a place. -/
def markAt (p : Place) : Node := p.leaf markKind false 0

/-- The kind, naming and length of what a form finds at the head of the bytes. -/
def Form.scan (s : State) (bytes : Bytes) : Form → Option (String × Bool × Nat)
  | .word text =>
    let n := nameLength bytes
    if n != 0 && bytes.take n == Text.encode text then some (text, false, n) else none
  | .name reserved =>
    let n := nameLength bytes
    if n != 0 && !reserved.any (fun r => Text.encode r == bytes.take n) then
      some ("identifier", true, n)
    else none
  | .symbol accepted rivals =>
    match longestOf (accepted ++ rivals) bytes with
    | some t => if accepted.contains t then some (t, false, t.utf8ByteSize) else none
    | none => none
  | .ellipsis => if startsWith [0x2e, 0x2e, 0x2e] bytes then some ("ellipsis", true, 3) else none
  | .number => some ("number", true, numberLength bytes)
  | .stringStart => (Quote.openAt? bytes).map fun q => ("string_start", true, q.2)
  | .stringContent =>
    match s.quotes with
    | q :: _ => (q.contentLength? bytes).map fun n => ("string_content", true, n)
    | [] => none
  | .stringEnd =>
    match s.quotes with
    | q :: _ => if q.closesAt bytes then some ("string_end", true, q.closeLength) else none
    | [] => none
  | .conversion =>
    match bytes with
    | a :: b :: _ =>
      if a == 0x21 && 0x61 ≤ b && b ≤ 0x7a then some ("type_conversion", true, 2) else none
    | _ => none
  | .formatText =>
    some ("format_text", false, runLength (fun b => b != 0x7b && b != 0x7d && b != 0x0a) bytes)
  | _ => none

/-- The literals open after a form has been read. -/
def Form.quotesAfter (s : State) (bytes : Bytes) : Form → List Quote
  | .stringStart => ((Quote.openAt? bytes).map (·.1)).toList ++ s.quotes
  | .stringEnd => s.quotes.drop 1
  | _ => s.quotes

/-- The form is read right at the place, with no white space before it. -/
def Form.immediate : Form → Bool
  | .stringContent => true
  | .stringEnd => true
  | .formatText => true
  | _ => false

/-- Reads a form that stands for code, after the comments before it. -/
def readCode (form : Form) (comments : List Node) (p : Place) (s : State) :
    Except Reach (List Node × State) :=
  let q := if form.immediate then p else skipBlanks p.limit p
  match form.scan s q.rest with
  | some (kind, named, size) =>
    if size == 0 then .error (s.trail.refuse q)
    else .ok (comments ++ [q.leaf kind named size],
      { s with
        place := q.advance size
        quotes := form.quotesAfter s q.rest
        trail := s.trail.push q size false })
  | none => .error (s.trail.refuse q)

/-- Reads a form that stands for a mark of the layout: comments are taken until the place is such
    that the mark may stand there. -/
def readMark (stop : Place → Bool) (ended : Bool) (s : State) (update : Gap → State → State) :
    Except Reach (List Node × State) :=
  let p := s.place
  match extrasUntil stop (p.limit + 1) p with
  | (comments, q, true) =>
    let s' := update ((gapOver q).getD {}) { s with place := q }
    .ok (comments ++ [markAt q], { s' with trail := s.trail.push q 0 ended })
  | (_, q, false) => .error (s.trail.refuse (skipBlanks q.limit q))

/-- Reads a terminal that stands for code.  At the level of a statement, one that goes on the statement
    must stand before the end of the line; elsewhere the end of a line may break the statement. -/
def readToken (mode : Mode) (t : Terminal) (s : State) : Except Reach (List Node × State) :=
  let p := s.place
  if t.form.immediate then readCode t.form [] p s
  else if mode == .line && t.continues then
    if (gapOver p).all (·.endsLine) then .error (s.trail.refuse (skipBlanks p.limit p))
    else
      let (comments, q, _) := extrasUntil (fun _ => false) (p.limit + 1) p
      readCode t.form comments q s
  else
    let free := mode == .bracket || (mode == .openBracket && t.continues)
    match extrasUntil (fun q => !free && (gapTo q).any (·.breaks s.depth)) (p.limit + 1) p with
    | (_, q, true) => .error (s.trail.refuse (skipBlanks q.limit q))
    | (comments, q, false) => readCode t.form comments q s

/-- Reads a terminal. -/
def readTerminal (mode : Mode) (t : Terminal) (s : State) : Except Reach (List Node × State) :=
  let p := s.place
  let here : Place := skipBlanks p.limit p
  match t.form with
  | .begin =>
    match extrasUntil (fun q => (gapOver q).any (·.closes s.depth)) (p.limit + 1) p with
    | (_, q, true) => .error (s.trail.refuse (skipBlanks q.limit q))
    | (comments, q, false) =>
      let q := skipBlanks q.limit q
      if q.rest.isEmpty then .error (s.trail.refuse q)
      else .ok (comments, { s with place := q })
  | .newline =>
    readMark (fun q => (gapOver q).any (·.endsLine)) true s fun _ s => s
  | .indent =>
    readMark (fun q => (gapOver q).any fun g => g.endsLine && s.depth < g.indent) false s
      fun g s => { s with depths := g.indent :: s.depths }
  | .dedent =>
    readMark (fun q => (gapOver q).any (·.closes s.depth)) true s
      fun _ s => { s with depths := s.depths.drop 1 }
  | .sameLine =>
    if mode == .line && (gapOver p).all (·.endsLine) then .error (s.trail.refuse here)
    else .ok ([], s)
  | .finish =>
    let (comments, q, _) := extrasUntil (fun _ => false) (p.limit + 1) p
    let q := skipBlanks q.limit q
    if q.rest.isEmpty then .ok (comments, { s with place := q }) else .error (s.trail.refuse q)
  | _ => readToken mode t s

/-- How the terminals of Python are read. -/
def lexis : Lexis Terminal Mode State where
  read := readTerminal
  offset s := s.place.offset

end Docsmith.Python
