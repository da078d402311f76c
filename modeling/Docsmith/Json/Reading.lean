import Docsmith.Json.Basic
import Docsmith.Number.Reading

namespace Docsmith.Json

/-!
# Reading documents

* `Fault`: why a text is no document, and where.
* `parse`: the value of a document.
-/

/-- Why a text is no document, and the number of characters before the place. -/
structure Fault where
  reason : String
  position : Nat

/-- A fault with its line and column, both counted from one. -/
def Fault.message (f : Fault) (doc : List Char) : String :=
  let before := doc.take f.position
  let line := before.countP (· == '\n') + 1
  let column := (before.reverse.takeWhile (· != '\n')).length + 1
  f.reason ++ ": line " ++ toString line ++ " column " ++ toString column
    ++ " (char " ++ toString f.position ++ ")"

/-- What is left to read, and the number of characters before it. -/
structure Cursor where
  rest : List Char
  position : Nat

/-- The cursor some characters further on. -/
def Cursor.skip (c : Cursor) (n : Nat) : Cursor := ⟨c.rest.drop n, c.position + n⟩

/-- The cursor after white space. -/
def Cursor.trim (c : Cursor) : Cursor :=
  c.skip (c.rest.takeWhile fun x => x == ' ' || x == '\t' || x == '\n' || x == '\r').length

/-- The value of a hexadecimal digit. -/
def hexValue? (c : Char) : Option Nat :=
  if '0' ≤ c && c ≤ '9' then some (c.toNat - 0x30)
  else if 'a' ≤ c && c ≤ 'f' then some (c.toNat - 0x61 + 10)
  else if 'A' ≤ c && c ≤ 'F' then some (c.toNat - 0x41 + 10)
  else none

/-- The value of four hexadecimal digits at the head. -/
def unit? (cs : List Char) : Option Nat :=
  let ds := cs.take 4
  if ds.length < 4 then none
  else ds.foldl (fun n? c => do return (← n?) * 16 + (← hexValue? c)) (some 0)

/-- The unit of a second half of a pair at the head. -/
def trailUnit? : List Char → Option Nat
  | '\\' :: 'u' :: rest =>
    (unit? rest).bind fun n => if 0xdc00 ≤ n && n < 0xe000 then some n else none
  | _ => none

/-- The character that a single letter after a backslash stands for. -/
def escaped? (c : Char) : Option Char :=
  if c == '"' || c == '\\' || c == '/' then some c
  else if c == 'b' then some (Char.ofNat 0x08)
  else if c == 'f' then some (Char.ofNat 0x0c)
  else if c == 'n' then some '\n'
  else if c == 'r' then some '\r'
  else if c == 't' then some '\t'
  else none

/-- Reads the characters of a text after its opening quote, which stood at `start`.  The first
    argument bounds the number of steps. -/
def readText (start : Nat) : Nat → List Char → Cursor → Except Fault (String × Cursor)
  | 0, _, _ => .error ⟨"Unterminated string starting at", start⟩
  | steps + 1, acc, c =>
    match c.rest with
    | [] => .error ⟨"Unterminated string starting at", start⟩
    | '"' :: _ => .ok (String.ofList acc.reverse, c.skip 1)
    | '\\' :: 'u' :: rest =>
      match unit? rest with
      | none => .error ⟨"Invalid \\uXXXX escape", c.position + 1⟩
      | some n =>
        if rest.length < 5 then .error ⟨"Invalid \\uXXXX escape", c.position + 1⟩
        else
          match (if 0xd800 ≤ n && n < 0xdc00 then trailUnit? (rest.drop 4) else none) with
          | some m =>
            let code := 0x10000 + (n - 0xd800) * 0x400 + (m - 0xdc00)
            readText start steps (Char.ofNat code :: acc) (c.skip 12)
          | none => readText start steps (Char.ofNat n :: acc) (c.skip 6)
    | ['\\'] => .error ⟨"Unterminated string starting at", start⟩
    | '\\' :: e :: _ =>
      match escaped? e with
      | some x => readText start steps (x :: acc) (c.skip 2)
      | none => .error ⟨"Invalid \\escape", c.position⟩
    | x :: _ =>
      if x.toNat < 0x20 then .error ⟨"Invalid control character at", c.position⟩
      else readText start steps (x :: acc) (c.skip 1)

/-- Reads a number: an integer, or a float when it has a fraction or an exponent. -/
def readNumber? (c : Cursor) : Option (Number × Cursor) :=
  let sign := if c.rest.head? == some '-' then 1 else 0
  let cs := c.rest.drop sign
  let isAscii (x : Char) : Bool := '0' ≤ x && x ≤ '9'
  let whole := if cs.head? == some '0' then ['0'] else cs.takeWhile isAscii
  if whole.isEmpty then none
  else
    let afterWhole := cs.drop whole.length
    let fraction := match afterWhole with
      | '.' :: rest => rest.takeWhile isAscii
      | _ => []
    let afterFraction := if fraction.isEmpty then afterWhole
      else afterWhole.drop (fraction.length + 1)
    let exponent := match afterFraction with
      | e :: rest =>
        if e == 'e' || e == 'E' then
          let mark := match rest with
            | '+' :: _ => ['+']
            | '-' :: _ => ['-']
            | _ => []
          let ds := (rest.drop mark.length).takeWhile isAscii
          if ds.isEmpty then [] else e :: mark ++ ds
        else []
      | [] => []
    let value (ds : List Char) : Nat := digitsValue (ds.map fun x => x.toNat - 0x30)
    let size := sign + whole.length + (if fraction.isEmpty then 0 else fraction.length + 1)
      + exponent.length
    let negative := sign == 1
    if fraction.isEmpty && exponent.isEmpty then
      let n : Int := value whole
      some (.int (if negative then -n else n), c.skip size)
    else
      let power : Int := match exponent with
        | _ :: '-' :: ds => -(value ds : Int)
        | _ :: '+' :: ds => value ds
        | _ :: ds => value ds
        | [] => 0
      some (.float (floatOf negative (value (whole ++ fraction)) (power - fraction.length)),
        c.skip size)

/-- The fixed words of documents and their values. -/
def constants : List (String × Json) :=
  [("null", .null), ("true", .bool true), ("false", .bool false),
   ("NaN", .num (.float (0.0 / 0.0))), ("Infinity", .num (.float (1.0 / 0.0))),
   ("-Infinity", .num (.float (-1.0 / 0.0)))]

/-- The constant at the head. -/
def constant? (c : Cursor) : Option (Json × Cursor) :=
  (constants.find? fun (w, _) => w.toList.isPrefixOf c.rest).map fun (w, j) =>
    (j, c.skip w.length)

mutual

/-- Reads a value.  The first argument bounds the depth of the reading. -/
def readValue : Nat → Cursor → Except Fault (Json × Cursor)
  | 0, c => .error ⟨"Expecting value", c.position⟩
  | depth + 1, c =>
    match c.rest with
    | '"' :: _ =>
      (readText c.position (c.rest.length + 1) [] (c.skip 1)).map fun (s, c) => (.text s, c)
    | '{' :: _ =>
      let c := (c.skip 1).trim
      match c.rest with
      | '}' :: _ => .ok (.object [], c.skip 1)
      | _ => readFields depth [] c
    | '[' :: _ =>
      let c := (c.skip 1).trim
      match c.rest with
      | ']' :: _ => .ok (.list [], c.skip 1)
      | _ => readItems depth [] c
    | _ =>
      match constant? c with
      | some out => .ok out
      | none =>
        match readNumber? c with
        | some (n, c) => .ok (.num n, c)
        | none => .error ⟨"Expecting value", c.position⟩

/-- Reads the fields of a record after those already read. -/
def readFields : Nat → List (String × Json) → Cursor → Except Fault (Json × Cursor)
  | 0, _, c => .error ⟨"Expecting value", c.position⟩
  | depth + 1, fields, c =>
    match c.rest with
    | '"' :: _ =>
      match readText c.position (c.rest.length + 1) [] (c.skip 1) with
      | .error f => .error f
      | .ok (name, c) =>
        let c := c.trim
        match c.rest with
        | ':' :: _ =>
          match readValue depth (c.skip 1).trim with
          | .error f => .error f
          | .ok (value, c) =>
            let c := c.trim
            let fields := put name value fields
            match c.rest with
            | '}' :: _ => .ok (.object fields, c.skip 1)
            | ',' :: _ => readFields depth fields (c.skip 1).trim
            | _ => .error ⟨"Expecting ',' delimiter", c.position⟩
        | _ => .error ⟨"Expecting ':' delimiter", c.position⟩
    | _ => .error ⟨"Expecting property name enclosed in double quotes", c.position⟩

/-- Reads the items of a list after those already read, which are in reverse order. -/
def readItems : Nat → List Json → Cursor → Except Fault (Json × Cursor)
  | 0, _, c => .error ⟨"Expecting value", c.position⟩
  | depth + 1, items, c =>
    match readValue depth c with
    | .error f => .error f
    | .ok (value, c) =>
      let c := c.trim
      match c.rest with
      | ']' :: _ => .ok (.list (value :: items).reverse, c.skip 1)
      | ',' :: _ => readItems depth (value :: items) (c.skip 1).trim
      | _ => .error ⟨"Expecting ',' delimiter", c.position⟩

end

/-- The value of a document. -/
def parse (doc : List Char) : Except Fault Json :=
  match readValue (2 * doc.length + 2) (Cursor.trim ⟨doc, 0⟩) with
  | .error f => .error f
  | .ok (value, c) =>
    let c := c.trim
    if c.rest.isEmpty then .ok value else .error ⟨"Extra data", c.position⟩

end Docsmith.Json
