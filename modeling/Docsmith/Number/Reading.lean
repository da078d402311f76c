import Docsmith.Text.Blank
import Docsmith.Text.Digit
import Docsmith.Text.Quoted

namespace Docsmith

open Text

/-!
# Numbers read from text

Settings may spell numbers with blanks around them, a sign, single underscores between digits, and
decimal digits of any script.

* `readInt?`: an integer.
* `readFloat?`: a float, the words for infinity and for no number included.
-/

/-- The value of decimal digits. -/
def digitsValue (ds : List Nat) : Nat := ds.foldl (fun n d => n * 10 + d) 0

/-- Digits with single underscores between them, and the rest of the text. -/
def readDigits : List Char → List Nat × List Char
  | [] => ([], [])
  | c :: rest =>
    match digitValue? c with
    | none => ([], c :: rest)
    | some d =>
      match rest with
      | '_' :: e :: more =>
        match digitValue? e with
        | some _ =>
          let (ds, r) := readDigits (e :: more)
          (d :: ds, r)
        | none => ([d], '_' :: e :: more)
      | rest =>
        let (ds, r) := readDigits rest
        (d :: ds, r)

/-- An optional sign, and the rest of the text. -/
def readSign : List Char → Bool × List Char
  | '-' :: rest => (true, rest)
  | '+' :: rest => (false, rest)
  | rest => (false, rest)

/-- The integer that a text spells. -/
def readInt? (s : String) : Option Int :=
  let (negative, rest) := readSign (trimChars s.toList)
  match readDigits rest with
  | (d :: ds, []) =>
    let n : Int := digitsValue (d :: ds)
    some (if negative then -n else n)
  | _ => none

/-- The float `digits · 10 ^ exponent` with a sign.  Beyond the magnitudes that floats have there
    are only infinity and zero. -/
def floatOf (negative : Bool) (digits : Nat) (exponent : Int) : Float :=
  let magnitude := (Nat.toDigits 10 digits).length + exponent
  let x := if digits == 0 || magnitude < -400 then 0.0
    else if 400 < magnitude then 1.0 / 0.0
    else match exponent with
      | .ofNat e => Float.ofScientific digits false e
      | .negSucc e => Float.ofScientific digits true (e + 1)
  if negative then -x else x

/-- The exponent of a float, and the rest of the text; none when the mark has no digits. -/
def readExponent? : List Char → Option (Int × List Char)
  | c :: rest =>
    if c == 'e' || c == 'E' then
      let (negative, rest) := readSign rest
      match readDigits rest with
      | ([], _) => none
      | (ds, rest) =>
        let n : Int := digitsValue ds
        some (if negative then -n else n, rest)
    else some (0, c :: rest)
  | [] => some (0, [])

/-- The digits after a decimal point, and the rest of the text. -/
def readFraction : List Char → List Nat × List Char
  | '.' :: rest => readDigits rest
  | rest => ([], rest)

/-- The float that a text spells. -/
def readFloat? (s : String) : Option Float :=
  let (negative, rest) := readSign (trimChars s.toList)
  let word := String.ofList (rest.map Char.toLower)
  let infinity : Float := 1.0 / 0.0
  if word == "inf" || word == "infinity" then some (if negative then -infinity else infinity)
  else if word == "nan" then some (0.0 / 0.0)
  else
    let (whole, rest) := readDigits rest
    let (fraction, rest) := readFraction rest
    if whole.isEmpty && fraction.isEmpty then none
    else match readExponent? rest with
      | some (e, []) =>
        some (floatOf negative (digitsValue (whole ++ fraction)) (e - fraction.length))
      | _ => none

end Docsmith
