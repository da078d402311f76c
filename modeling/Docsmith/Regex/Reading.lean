import Docsmith.Number.Reading
import Docsmith.Regex.Basic

namespace Docsmith.Regex

open Text

/-!
# Reading regular expressions

* `Fault`: why a text is no expression, and where.
* `Token`, `Cursor`: the pieces of a text, of which a backslash and the character after it are one.
* `readClassItem`, `readSet`, `readEscape`, `readRepeat?`: the small parts of an expression.
* `readAlternatives`, `readItems`: expressions.
* `parse`: the expression of a text.
-/

/-- Why a text is no expression, and the number of characters before the place. -/
structure Fault where
  reason : String
  position : Nat
deriving Repr

/-- A fault in words; in a text of several lines with the line and column. -/
def Fault.message (f : Fault) (pattern : String) : String :=
  let cs := pattern.toList
  let before := cs.take f.position
  let line := before.countP (· == '\n') + 1
  let column := (before.reverse.takeWhile (· != '\n')).length + 1
  f.reason ++ " at position " ++ toString f.position
    ++ if cs.contains '\n' then
        " (line " ++ toString line ++ ", column " ++ toString column ++ ")"
      else ""

/-- A piece of a text: a character, or one behind a backslash. -/
inductive Token where
  | plain (c : Char)
  | escaped (c : Char)
deriving DecidableEq

/-- The number of characters of a piece. -/
def Token.size : Token → Nat
  | plain _ => 1
  | escaped _ => 2

/-- The number of characters of some pieces. -/
def Token.sizes (ts : List Token) : Nat := ts.foldl (fun n t => n + t.size) 0

/-- A piece as it is written. -/
def Token.text : Token → String
  | plain c => String.singleton c
  | escaped c => String.ofList ['\\', c]

/-- The pieces of a text, and whether a backslash with nothing after it is left at its end. -/
def tokens : List Char → List Token × Bool
  | [] => ([], false)
  | ['\\'] => ([], true)
  | '\\' :: c :: rest =>
    let (ts, broken) := tokens rest
    (.escaped c :: ts, broken)
  | c :: rest =>
    let (ts, broken) := tokens rest
    (.plain c :: ts, broken)

/-- Settings of an expression. -/
structure Flags where
  ignoreCase : Bool := false
  everyLine : Bool := false
  newlines : Bool := false

/-- What is left to read: the place, the pieces, whether a lone backslash ends them, the settings,
    and the number of groups so far. -/
structure Cursor where
  position : Nat := 0
  rest : List Token
  broken : Bool
  flags : Flags := {}
  groups : Nat := 1

/-- The fault of a backslash with nothing after it. -/
def Cursor.brokenFault (c : Cursor) : Fault :=
  ⟨"bad escape (end of pattern)", c.position + Token.sizes c.rest⟩

/-- The next piece, and the cursor after it.  A lone backslash is found as soon as it comes next. -/
def Cursor.get (c : Cursor) : Except Fault (Option Token × Cursor) :=
  match c.rest with
  | [] => .ok (none, c)
  | t :: rest =>
    if rest.isEmpty && c.broken then .error c.brokenFault
    else .ok (some t, { c with rest := rest, position := c.position + t.size })

/-- The next piece is the character. -/
def Cursor.sees (c : Cursor) (x : Char) : Bool := c.rest.head? == some (.plain x)

/-- The cursor after a character, if it comes next. -/
def Cursor.accept (c : Cursor) (x : Char) : Except Fault (Bool × Cursor) :=
  if c.sees x then do
    let (_, c) ← c.get
    return (true, c)
  else .ok (false, c)

/-- Characters of a class, up to a number of them. -/
def Cursor.getWhile (holds : Char → Bool) : Nat → Cursor → Except Fault (List Char × Cursor)
  | 0, c => .ok ([], c)
  | count + 1, c =>
    match c.rest with
    | .plain x :: _ =>
      if holds x then do
        let (_, c) ← c.get
        let (xs, c) ← getWhile holds count c
        return (x :: xs, c)
      else .ok ([], c)
    | _ => .ok ([], c)

/-- An octal digit. -/
def isOctal (c : Char) : Bool := '0' ≤ c && c ≤ '7'

/-- A hexadecimal digit. -/
def isHex (c : Char) : Bool :=
  c.isDigit || ('a' ≤ c && c ≤ 'f') || ('A' ≤ c && c ≤ 'F')

/-- The value of digits of a base. -/
def valueOf (base : Nat) (cs : List Char) : Nat :=
  cs.foldl (fun n c =>
    let d := if c.isDigit then c.toNat - 0x30 else c.toLower.toNat - 0x61 + 10
    n * base + d) 0

/-- The control character that a letter behind a backslash stands for. -/
def control? (c : Char) : Option Char :=
  (([('a', 0x07), ('f', 0x0c), ('n', 0x0a), ('r', 0x0d), ('t', 0x09), ('v', 0x0b), ('\\', 0x5c)]
    : List (Char × Nat)).find? (·.1 == c)).map fun (_, n) => Char.ofNat n

/-- The class that a letter behind a backslash stands for. -/
def category? (c : Char) : Option CharClass :=
  if c == 'd' then some (.digit false) else if c == 'D' then some (.digit true)
  else if c == 's' then some (.blank false) else if c == 'S' then some (.blank true)
  else if c == 'w' then some (.word false) else if c == 'W' then some (.word true)
  else none

/-- The number of hexadecimal digits that a letter behind a backslash asks for. -/
def hexCount? (c : Char) : Option Nat :=
  if c == 'x' then some 2 else if c == 'u' then some 4 else if c == 'U' then some 8 else none

/-- A character by its hexadecimal number, behind a backslash and a letter. -/
def readHex (letter : Char) (count : Nat) (c : Cursor) : Except Fault (Char × Cursor) := do
  let start := c.position - 2
  let (digits, c) ← c.getWhile isHex count
  if digits.length == count then return (Char.ofNat (valueOf 16 digits), c)
  else .error ⟨"incomplete escape " ++ String.ofList ('\\' :: letter :: digits), start⟩

/-- The fault of a letter that means nothing behind a backslash. -/
def badEscape (x : Char) (c : Cursor) : Fault :=
  ⟨"bad escape " ++ String.ofList ['\\', x], c.position - 2⟩

/-- A character or class behind a backslash inside a set. -/
def readClassEscape (x : Char) (c : Cursor) : Except Fault (CharClass × Cursor) := do
  if x == 'b' then return (.char (Char.ofNat 0x08), c)
  match control? x, category? x, hexCount? x with
  | some y, _, _ => return (.char y, c)
  | _, some k, _ => return (k, c)
  | _, _, some count =>
    let (y, c) ← readHex x count c
    return (.char y, c)
  | _, _, _ =>
    if isOctal x then
      let (digits, c) ← c.getWhile isOctal 2
      return (.char (Char.ofNat (valueOf 8 (x :: digits))), c)
    else if x.isAlphanum then .error (badEscape x c)
    else return (.char x, c)

/-- A member of a set. -/
def readClassItem (t : Token) (c : Cursor) : Except Fault (CharClass × Cursor) :=
  match t with
  | .plain x => .ok (.char x, c)
  | .escaped x => readClassEscape x c

/-- The members of a set up to its closing bracket.  The first argument bounds their number. -/
def readSetFrom (start : Nat) :
    Nat → List CharClass → Cursor → Except Fault (List CharClass × Cursor)
  | 0, _, _ => .error ⟨"unterminated character set", start⟩
  | more + 1, found, c => do
    match ← c.get with
    | (none, _) => .error ⟨"unterminated character set", start⟩
    | (some first, c) =>
      if first == .plain ']' && !found.isEmpty then return (found, c)
      let (low, c) ← readClassItem first c
      match ← c.accept '-' with
      | (false, c) => readSetFrom start more (found ++ [low]) c
      | (true, c) =>
        match ← c.get with
        | (none, _) => .error ⟨"unterminated character set", start⟩
        | (some last, c) =>
          if last == .plain ']' then return (found ++ [low, .char '-'], c)
          let (high, c) ← readClassItem last c
          let bad : Fault := ⟨"bad character range " ++ first.text ++ "-" ++ last.text,
            c.position - first.size - 1 - last.size⟩
          match low, high with
          | .char a, .char b =>
            if b < a then .error bad else readSetFrom start more (found ++ [.range a b]) c
          | _, _ => .error bad

/-- A set, after its opening bracket. -/
def readSet (c : Cursor) : Except Fault (Regex × Cursor) := do
  let start := c.position - 1
  let (negated, c) ← c.accept '^'
  let (classes, c) ← readSetFrom start (c.rest.length + 1) [] c
  return (.set negated c.flags.ignoreCase classes, c)

/-- A single character. -/
def literal (c : Cursor) (x : Char) : Regex := .set false c.flags.ignoreCase [.char x]

/-- A reference to a group or a character by its octal number. -/
def readNumbered (x : Char) (c : Cursor) : Except Fault (Regex × Cursor) := do
  let start := c.position - 2
  let (second, c) ← c.getWhile Char.isDigit 1
  let digits := x :: second
  if digits.length == 2 && digits.all isOctal && c.rest.head?.any (fun t =>
      match t with
      | .plain y => isOctal y
      | .escaped _ => false) then
    let (third, c) ← c.getWhile isOctal 1
    let n := valueOf 8 (digits ++ third)
    if n > 0o377 then
      .error ⟨"octal escape value " ++ String.ofList ('\\' :: digits ++ third)
        ++ " outside of range 0-0o377", start⟩
    else return (literal c (Char.ofNat n), c)
  else
    let n := valueOf 10 digits
    if n < c.groups then return (.never, c)
    else .error ⟨"invalid group reference " ++ toString n, start + 1⟩

/-- What a character behind a backslash stands for. -/
def readEscape (x : Char) (c : Cursor) : Except Fault (Regex × Cursor) := do
  if x == 'A' then return (.textStart, c)
  if x == 'Z' then return (.textEnd, c)
  if x == 'b' then return (.boundary false, c)
  if x == 'B' then return (.boundary true, c)
  match category? x, control? x, hexCount? x with
  | some k, _, _ => return (.set false false [k], c)
  | _, some y, _ => return (literal c y, c)
  | _, _, some count =>
    let (y, c) ← readHex x count c
    return (literal c y, c)
  | _, _, _ =>
    if x == '0' then
      let (digits, c) ← c.getWhile isOctal 2
      return (literal c (Char.ofNat (valueOf 8 digits)), c)
    else if x.isDigit then readNumbered x c
    else if x.isAlpha then .error (badEscape x c)
    else return (literal c x, c)

/-- The bounds of a repetition that begins with a character, which was read; none when an opening
    brace stands for itself. -/
def readRepeat? (x : Char) (c : Cursor) : Except Fault (Option (Nat × Option Nat) × Cursor) := do
  if x == '?' then return (some (0, some 1), c)
  if x == '*' then return (some (0, none), c)
  if x == '+' then return (some (1, none), c)
  if c.sees '\x7d' then return (none, c)
  let back := c
  let (low, c) ← c.getWhile Char.isDigit c.rest.length
  let (comma, c) ← c.accept ','
  let (high, c) ← if comma then c.getWhile Char.isDigit c.rest.length else pure (low, c)
  let (closed, c) ← c.accept '\x7d'
  if !closed then return (none, back)
  let least := valueOf 10 low
  let most := if high.isEmpty then none else some (valueOf 10 high)
  if most.any (· < least) then
    .error ⟨"min repeat greater than max repeat", back.position⟩
  return (some (least, most), c)

/-- The expression may not be repeated, being a place. -/
def isPlace : Regex → Bool
  | .lineStart _ | .lineEnd _ | .textStart | .textEnd | .boundary _ => true
  | _ => false

/-- The expression is a repetition. -/
def isMany : Regex → Bool
  | .many .. => true
  | _ => false

/-- The expression one after another. -/
def sequence : List Regex → Regex
  | [] => .empty
  | [r] => r
  | r :: rest => .seq r (sequence rest)

/-- Sets a flag by its letter. -/
def Flags.set (f : Flags) (letter : Char) (value : Bool) : Flags :=
  if letter == 'i' then { f with ignoreCase := value }
  else if letter == 'm' then { f with everyLine := value }
  else if letter == 's' then { f with newlines := value }
  else f

/-- The letters of flags. -/
def flagLetters : List Char := ['i', 'L', 'm', 's', 'x', 'a', 'u']

/-- Flags up to the character that ends them, the first letter being read. -/
def readFlags : Nat → Char → Bool → Cursor → Except Fault (Char × Cursor)
  | 0, _, _, c => .error ⟨"missing -, : or )", c.position⟩
  | more + 1, letter, value, c => do
    if letter == 'L' then
      .error ⟨"bad inline flags: cannot use 'L' flag with a str pattern", c.position⟩
    let c := { c with flags := c.flags.set letter value }
    match ← c.get with
    | (none, c) => .error ⟨if value then "missing -, : or )" else "missing :", c.position⟩
    | (some t, c) =>
      let x := match t with
        | .plain x => x
        | .escaped _ => '\\'
      if x == ':' || (value && (x == ')' || x == '-')) then return (x, c)
      else if flagLetters.contains x then readFlags more x value c
      else
        let missing := if value then "missing -, : or )" else "missing :"
        .error ⟨if x.isAlpha then "unknown flag" else missing, c.position - t.size⟩

/-- The name of a group up to its closing mark. -/
def readName (c : Cursor) : Except Fault Cursor := do
  let start := c.position
  let inside := c.rest.takeWhile (· != .plain '>')
  if inside.length == c.rest.length then
    if inside.isEmpty then .error ⟨"missing group name", start⟩
    else .error ⟨"missing >, unterminated name", start⟩
  let name := String.join (inside.map Token.text)
  if name.isEmpty then .error ⟨"missing group name", start⟩
  let proper := match name.toList with
    | x :: rest => isNameStart x.toNat && rest.all fun y => isNameRest y.toNat
    | [] => false
  if !proper then .error ⟨"bad character in group name " ++ quote name, start⟩
  let c := { c with rest := c.rest.drop inside.length, position := c.position + name.length }
  return (← c.get).2

/-- What kind of group begins after an opening parenthesis. -/
inductive GroupKind where
  | plain
  | capturing
  | comment
  | flagsOnly
  | look (behind negated : Bool)

/-- Skips a comment up to its closing parenthesis. -/
def skipComment (start : Nat) (c : Cursor) : Except Fault Cursor := do
  let inside := c.rest.takeWhile (· != .plain ')')
  if inside.length == c.rest.length then
    .error ⟨"missing ), unterminated comment", start⟩
  let size := Token.sizes inside
  return (← { c with rest := c.rest.drop inside.length, position := c.position + size }.get).2

/-- The flags of a group or of the whole expression; `atStart` says that nothing was read before. -/
def readGroupFlags (start : Nat) (atStart : Bool) (x : Char) (c : Cursor) :
    Except Fault (GroupKind × Cursor) := do
  let off (c : Cursor) : Except Fault (GroupKind × Cursor) := do
    match ← c.get with
    | (some (.plain y), c) =>
      if flagLetters.contains y then return (.plain, (← readFlags (c.rest.length + 1) y false c).2)
      else .error ⟨if y.isAlpha then "unknown flag" else "missing flag", c.position - 1⟩
    | (some t, c) => .error ⟨"missing flag", c.position - t.size⟩
    | (none, c) => .error ⟨"missing flag", c.position⟩
  if x == '-' then off c
  else
    match ← readFlags (c.rest.length + 1) x true c with
    | (')', c) =>
      if atStart then return (.flagsOnly, c)
      else .error ⟨"global flags not at the start of the expression", start⟩
    | ('-', c) => off c
    | (_, c) => return (.plain, c)

/-- The kind of a group, after its opening parenthesis. -/
def readGroupKind (atStart : Bool) (c : Cursor) : Except Fault (GroupKind × Cursor) := do
  let start := c.position - 1
  let ended (c : Cursor) : Fault := ⟨"unexpected end of pattern", c.position⟩
  match ← c.accept '?' with
  | (false, c) => return (.capturing, c)
  | (true, c) =>
    match ← c.get with
    | (none, c) => .error (ended c)
    | (some t, c) =>
      if t == .plain ':' || t == .plain '>' then return (.plain, c)
      else if t == .plain '#' then return (.comment, ← skipComment start c)
      else if t == .plain '=' then return (.look false false, c)
      else if t == .plain '!' then return (.look false true, c)
      else if t == .plain '<' then
        match ← c.get with
        | (none, c) => .error (ended c)
        | (some u, c) =>
          if u == .plain '=' then return (.look true false, c)
          else if u == .plain '!' then return (.look true true, c)
          else .error ⟨"unknown extension ?<" ++ u.text, c.position - u.size - 2⟩
      else if t == .plain 'P' then
        match ← c.get with
        | (none, c) => .error (ended c)
        | (some u, c) =>
          if u == .plain '<' then return (.capturing, ← readName c)
          else .error ⟨"unknown extension ?P" ++ u.text, c.position - u.size - 2⟩
      else match t with
        | .plain x =>
          if flagLetters.contains x || x == '-' then readGroupFlags start atStart x c
          else .error ⟨"unknown extension ?" ++ t.text, c.position - t.size - 1⟩
        | .escaped _ => .error ⟨"unknown extension ?" ++ t.text, c.position - t.size - 1⟩

mutual

/-- Alternatives up to a closing parenthesis or the end.  The first argument bounds the number of
    pieces, and `outer` says that no group is open. -/
def readAlternatives : Nat → Bool → Cursor → Except Fault (Regex × Cursor)
  | 0, _, c => .ok (.empty, c)
  | more + 1, outer, c => do
    let (first, c) ← readItems more outer [] c
    let (r, c) ← readFurther more first c
    return (r, c)

/-- Further alternatives to the one before. -/
def readFurther : Nat → Regex → Cursor → Except Fault (Regex × Cursor)
  | 0, r, c => .ok (r, c)
  | more + 1, r, c => do
    match ← c.accept '|' with
    | (false, c) => return (r, c)
    | (true, c) =>
      let (second, c) ← readItems more false [] c
      readFurther more (.alt r second) c

/-- Parts one after another, with those already read in reverse order; `outer` says that flags of
    the whole expression may stand here. -/
def readItems : Nat → Bool → List Regex → Cursor → Except Fault (Regex × Cursor)
  | 0, _, found, c => .ok (sequence found.reverse, c)
  | more + 1, outer, found, c => do
    if c.rest.isEmpty || c.sees '|' || c.sees ')' then return (sequence found.reverse, c)
    match ← c.get with
    | (none, c) => return (sequence found.reverse, c)
    | (some (.escaped x), c) =>
      let (r, c) ← readEscape x c
      readItems more outer (r :: found) c
    | (some (.plain x), c) =>
      if x == '[' then
        let (r, c) ← readSet c
        readItems more outer (r :: found) c
      else if x == '.' then readItems more outer (.anyChar c.flags.newlines :: found) c
      else if x == '^' then readItems more outer (.lineStart c.flags.everyLine :: found) c
      else if x == '$' then readItems more outer (.lineEnd c.flags.everyLine :: found) c
      else if x == '*' || x == '+' || x == '?' || x == '\x7b' then
        let start := c.position - 1
        match ← readRepeat? x c with
        | (none, c) => readItems more outer (literal c x :: found) c
        | (some (least, most), c) =>
          match found with
          | [] => .error ⟨"nothing to repeat", start⟩
          | item :: before =>
            if isPlace item then .error ⟨"nothing to repeat", start⟩
            if isMany item then .error ⟨"multiple repeat", start⟩
            let (lazy, c) ← c.accept '?'
            let (_, c) ← if lazy then pure (false, c) else c.accept '+'
            readItems more outer (.many item least most :: before) c
      else if x == '(' then
        match ← readGroupKind (outer && found.isEmpty) c with
        | (.flagsOnly, c) => readItems more outer found c
        | (.comment, c) => readItems more outer found c
        | (kind, inner) =>
          let start := c.position - 1
          let inner := match kind with
            | .capturing => { inner with groups := inner.groups + 1 }
            | _ => inner
          let (body, after) ← readAlternatives more false inner
          let (closed, after) ← after.accept ')'
          if !closed then .error ⟨"missing ), unterminated subpattern", start⟩
          let after := { after with flags := c.flags }
          let r := match kind with
            | .look false negated => .ahead negated body
            | .look true negated => .behind negated body
            | _ => .group body
          readItems more outer (r :: found) after
      else readItems more outer (literal c x :: found) c

end

/-- The expression of a text. -/
def parse (pattern : String) : Except Fault Regex := do
  let (ts, broken) := tokens pattern.toList
  let c : Cursor := { rest := ts, broken := broken }
  if ts.isEmpty && broken then .error c.brokenFault
  let (r, c) ← readAlternatives (3 * ts.length + 3) true c
  if c.rest.isEmpty then return r
  else .error ⟨"unbalanced parenthesis", c.position⟩

end Docsmith.Regex
