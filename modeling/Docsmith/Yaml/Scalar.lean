import Docsmith.Json.Basic
import Docsmith.Number.Reading

namespace Docsmith.Yaml

/-!
# Plain scalars

A scalar without quotes may stand for nothing, a truth value or a number; otherwise it is a text.

* `integer?`: decimal, binary, octal, hexadecimal and sexagesimal integers.
* `float?`: decimal and sexagesimal floats, infinity, and what is no number.
* `resolve`: the value of a plain scalar.
-/

/-- The value of a digit in bases up to sixteen. -/
def digit? (c : Char) : Option Nat :=
  if '0' ≤ c && c ≤ '9' then some (c.toNat - 0x30)
  else if 'a' ≤ c && c ≤ 'f' then some (c.toNat - 0x61 + 10)
  else if 'A' ≤ c && c ≤ 'F' then some (c.toNat - 0x41 + 10)
  else none

/-- Digits of a base and underscores, at least one of them, as a number. -/
def inBase? (base : Nat) (cs : List Char) : Option Nat :=
  if cs.isEmpty then none
  else cs.foldl (fun n? c =>
    if c == '_' then n?
    else n?.bind fun n => (digit? c).bind fun d => if d < base then some (n * base + d) else none)
    (some 0)

/-- The pieces of a text between colons. -/
def pieces (cs : List Char) : List (List Char) :=
  cs.foldr (fun c ps =>
    if c == ':' then [] :: ps
    else match ps with
      | p :: rest => (c :: p) :: rest
      | [] => [[c]]) [[]]

/-- A piece of a sexagesimal number: a number below sixty in one or two digits. -/
def sixty? (cs : List Char) : Option Nat :=
  if cs.length ≤ 2 && !cs.contains '_' then
    (inBase? 10 cs).bind fun n => if n < 60 then some n else none
  else none

/-- A sexagesimal number from its first piece and the pieces after it, at least one. -/
def sexagesimal? (first : Nat) (rest : List (List Char)) : Option Nat :=
  if rest.isEmpty then none
  else rest.foldl (fun n? p => n?.bind fun n => (sixty? p).map (n * 60 + ·)) (some first)

/-- The magnitude that digits in one of the notations for integers spell. -/
def magnitude? : List Char → Option Nat
  | ['0'] => some 0
  | '0' :: 'b' :: ds => inBase? 2 ds
  | '0' :: 'x' :: ds => inBase? 16 ds
  | '0' :: ds => inBase? 8 ds
  | cs =>
    match pieces cs with
    | p :: rest =>
      if p.head?.any Char.isDigit then
        (inBase? 10 p).bind fun n => if rest.isEmpty then some n else sexagesimal? n rest
      else none
    | [] => none

/-- The integer that a plain scalar spells. -/
def integer? (cs : List Char) : Option Int :=
  let (negative, rest) := readSign cs
  (magnitude? rest).map fun n => if negative then -(n : Int) else n

/-- The exponent of a float: a mark, a sign and digits, or nothing. -/
def isExponent : List Char → Bool
  | [] => true
  | mark :: sign :: ds =>
    (mark == 'e' || mark == 'E') && (sign == '-' || sign == '+') && !ds.isEmpty
      && ds.all Char.isDigit
  | _ => false

/-- A digit of a float. -/
def isFloatDigit (c : Char) : Bool := c.isDigit || c == '_'

/-- A decimal float: digits, a point, and perhaps more digits and an exponent.  Without digits
    before the point there is one behind it, and no sign. -/
def isDecimal (signed : Bool) (cs : List Char) : Bool :=
  let whole := cs.takeWhile isFloatDigit
  match cs.dropWhile isFloatDigit with
  | '.' :: rest =>
    let tail := rest.dropWhile isFloatDigit
    isExponent tail
      && (if whole.isEmpty then !signed && rest.head?.any Char.isDigit
          else whole.head?.any Char.isDigit)
  | _ => false

/-- The value of a sexagesimal float, which has a point in its last piece. -/
def sexagesimalFloat? (cs : List Char) : Option Float :=
  match pieces cs with
  | first :: rest =>
    match rest.getLast? with
    | none => none
    | some last =>
      let whole := last.takeWhile (· != '.')
      let fraction := (last.dropWhile (· != '.')).drop 1
      if !last.contains '.' || !fraction.all isFloatDigit || !first.head?.any Char.isDigit then none
      else do
        let n ← inBase? 10 first
        let m ← sexagesimal? n (rest.dropLast ++ [whole])
        let tail ← readFloat? (String.ofList ('0' :: '.' :: fraction.filter (· != '_') ++ ['0']))
        return Float.ofNat m + tail
  | [] => none

/-- The float that a plain scalar spells. -/
def float? (cs : List Char) : Option Float :=
  let (negative, rest) := readSign cs
  let signed := rest.length < cs.length
  let apply (x : Float) : Float := if negative then -x else x
  let word := String.ofList rest
  if [".inf", ".Inf", ".INF"].contains word then some (apply (1.0 / 0.0))
  else if !signed && [".nan", ".NaN", ".NAN"].contains word then some (0.0 / 0.0)
  else if isDecimal signed rest then
    (readFloat? (String.ofList (rest.filter (· != '_')))).map apply
  else (sexagesimalFloat? rest).map apply

/-- The truth value that a plain scalar spells. -/
def truth? (s : String) : Option Bool :=
  if ["yes", "Yes", "YES", "true", "True", "TRUE", "on", "On", "ON"].contains s then some true
  else if ["no", "No", "NO", "false", "False", "FALSE", "off", "Off", "OFF"].contains s then
    some false
  else none

/-- The value of a plain scalar. -/
def resolve (cs : List Char) : Json :=
  let s := String.ofList cs
  if ["", "~", "null", "Null", "NULL"].contains s then .null
  else match truth? s with
    | some b => .bool b
    | none =>
      match float? cs with
      | some x => .num (.float x)
      | none =>
        match integer? cs with
        | some n => .num (.int n)
        | none => .text s

end Docsmith.Yaml
