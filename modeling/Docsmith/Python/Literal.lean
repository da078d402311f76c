import Docsmith.Grammar.Place

namespace Docsmith.Python

open Grammar

/-!
# Literals of Python

* `numberLength`: an integer or floating literal at the head.
* `Quote`: how a string literal that has been opened is delimited.
* `Quote.openAt?`: the opening of a string literal at the head.
* `Quote.contentLength?`: the text of a string literal up to its end or to an interpolated
  expression.
-/

/-- The number of bytes in digits of a class, single underscores between and after them. -/
def looseDigits (digit : UInt8 → Bool) : Bytes → Nat
  | [] => 0
  | a :: rest =>
    if digit a then
      match rest with
      | b :: more =>
        if b == 0x5f then looseDigits digit more + 2 else looseDigits digit (b :: more) + 1
      | [] => 1
    else 0

/-- One byte of a class, if it is at the head. -/
def oneOf (p : UInt8 → Bool) : Bytes → Nat
  | b :: _ => if p b then 1 else 0
  | [] => 0

/-- The length of a literal with a base marker after its first zero. -/
def basedLength (bytes : Bytes) : Nat :=
  match bytes with
  | z :: m :: rest =>
    if z != 0x30 then 0
    else
      let digits (p : UInt8 → Bool) : Nat :=
        let lead := oneOf (· == 0x5f) rest
        let n := digitsLength p (rest.drop lead)
        if n == 0 then 0 else n + lead + 2
      if m == 0x78 || m == 0x58 then digits isHexDigit
      else if m == 0x62 || m == 0x42 then digits fun b => b == 0x30 || b == 0x31
      else if m == 0x6f || m == 0x4f then digits fun b => 0x30 ≤ b && b ≤ 0x37
      else 0
  | _ => 0

/-- The length of an exponent at the head, zero when there is none. -/
def exponentLength (bytes : Bytes) : Nat :=
  let mark := oneOf (fun b => b == 0x65 || b == 0x45) bytes
  if mark == 0 then 0
  else
    let sign := oneOf (fun b => b == 0x2b || b == 0x2d) (bytes.drop 1)
    let n := looseDigits isDigit (bytes.drop (1 + sign))
    if n == 0 then 0 else 1 + sign + n

/-- The length of a decimal literal with its fraction and exponent. -/
def decimalLength (bytes : Bytes) : Nat :=
  let whole := looseDigits isDigit bytes
  let afterWhole := bytes.drop whole
  let point := oneOf (· == 0x2e) afterWhole
  let places := if point == 0 then 0 else looseDigits isDigit (afterWhole.drop 1)
  if whole == 0 && places == 0 then 0
  else
    let mantissa := whole + point + places
    mantissa + exponentLength (bytes.drop mantissa)

/-- The length of the number at the head, with its suffix. -/
def numberLength (bytes : Bytes) : Nat :=
  let based := basedLength bytes
  let n := if based == 0 then decimalLength bytes else based
  if n == 0 then 0
  else n + oneOf (fun b => b == 0x6a || b == 0x4a || b == 0x6c || b == 0x4c) (bytes.drop n)

/-- How an open string literal is delimited and what its text may hold. -/
structure Quote where
  mark : UInt8
  triple : Bool
  raw : Bool
  bytes : Bool
  format : Bool

/-- The byte may stand among the letters before an opening quote. -/
def isFlag (b : UInt8) : Bool :=
  [0x66, 0x46, 0x72, 0x52, 0x62, 0x42, 0x75, 0x55].contains b

/-- The byte is a quote. -/
def isQuote (b : UInt8) : Bool := b == 0x22 || b == 0x27 || b == 0x60

/-- The opening of a string literal at the head, with its length. -/
def Quote.openAt? (bytes : Bytes) : Option (Quote × Nat) :=
  let flags := bytes.takeWhile isFlag
  match bytes.drop flags.length with
  | [] => none
  | q :: rest =>
    if !isQuote q then none
    else
      let has (lower upper : UInt8) : Bool := flags.contains lower || flags.contains upper
      let triple := q != 0x60 && rest.take 2 == [q, q]
      some (⟨q, triple, has 0x72 0x52, has 0x62 0x42, has 0x66 0x46⟩,
        flags.length + (if triple then 3 else 1))

/-- The number of bytes in the closing of a string literal. -/
def Quote.closeLength (q : Quote) : Nat := if q.triple then 3 else 1

/-- The closing of the literal is at the head. -/
def Quote.closesAt (q : Quote) (bytes : Bytes) : Bool :=
  startsWith (List.replicate q.closeLength q.mark) bytes

/-- The number of bytes in an escape after its backslash; zero for a backslash that escapes
    nothing. -/
def escapeLength : Bytes → Nat
  | [] => 0
  | a :: rest =>
    let hex := runLength isHexDigit rest
    if a == 0x78 then if 2 ≤ hex then 3 else 0
    else if a == 0x75 then if 4 ≤ hex then 5 else 0
    else if a == 0x55 then if 8 ≤ hex then 9 else 0
    else if a == 0x4e then
      match rest with
      | b :: more =>
        let n := runLength (· != 0x7d) more
        if b == 0x7b && n != 0 && n < more.length then n + 3 else 0
      | [] => 0
    else if a == 0x0d then if rest.take 1 == [0x0a] then 2 else 0
    else if isDigit a
        || [0x0a, 0x22, 0x27, 0x5c, 0x61, 0x62, 0x66, 0x6e, 0x72, 0x74, 0x76].contains a
      then 1
    else 0

/-- The number of bytes that a backslash takes with it in a raw literal. -/
def rawEscapeLength (q : Quote) (rest : Bytes) : Nat :=
  let quoted := oneOf (fun b => b == q.mark || b == 0x5c) rest
  match rest.drop quoted with
  | a :: b :: _ => if a == 0x0d && b == 0x0a then quoted + 2
    else if a == 0x0d || a == 0x0a then quoted + 1 else quoted
  | [a] => if a == 0x0d || a == 0x0a then quoted + 1 else quoted
  | [] => quoted

/-- Measures the text of a literal.  `skip` bytes belong to the escape under way, and `fresh` says
    that the piece under way has no character yet: a line feed may then stand even in a literal of
    one line.  There is no measure when the literal never ends. -/
def Quote.measure? (q : Quote) : Nat → Bool → Bytes → Option Nat
  | _, _, [] => none
  | skip + 1, fresh, _ :: rest => (q.measure? skip fresh rest).map (· + 1)
  | 0, fresh, a :: rest =>
    if q.format && (a == 0x7b || a == 0x7d) then
      if rest.take 1 == [a] then (q.measure? 1 true rest).map (· + 1) else some 0
    else if a == 0x5c then
      if q.raw then (q.measure? (rawEscapeLength q rest) fresh rest).map (· + 1)
      else (q.measure? (escapeLength rest) true rest).map (· + 1)
    else if q.closesAt (a :: rest) then some 0
    else if a == 0x0a && !fresh && !q.triple then none
    else if a == 0 then none
    else (q.measure? 0 false rest).map (· + 1)

/-- The length of the text at the head, up to the end of the literal or to an interpolation. -/
def Quote.contentLength? (q : Quote) (bytes : Bytes) : Option Nat :=
  q.measure? 0 true bytes

end Docsmith.Python
