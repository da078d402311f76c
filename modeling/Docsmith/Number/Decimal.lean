import Docsmith.Number.Binary

namespace Docsmith

/-!
# Decimal text of numbers

* `shortest`: the fewest decimal digits that read back as a float, and of those the nearest.
* `floatText`: a float in the layout of reports: positional for moderate magnitudes, with a decimal
  point always, and with an exponent of at least two digits otherwise.
* `fixedText`: a float with a fixed number of decimal places.
-/

/-- A number in decimal: digits, and the power of ten of the last one. -/
structure Decimal where
  digits : Nat
  exponent : Int

/-- The digits of a natural number. -/
def digitsOf (n : Nat) : List Char := Nat.toDigits 10 n

/-- The least number of places by which a quotient must be shifted to the left to reach one, found
    within a number of steps. -/
def shiftToOne : Nat → Nat → Nat → Nat
  | 0, _, _ => 0
  | steps + 1, num, den => if den ≤ num then 0 else shiftToOne steps (num * 10) den + 1

/-- The power of ten of the first digit of a quotient. -/
def leadingPower (num den : Nat) : Int :=
  if den ≤ num then (digitsOf (num / den)).length - 1
  else -(shiftToOne 400 num den : Int)

/-- A quotient in units of a power of ten, rounded down. -/
def floorAt (num den : Nat) (power : Int) : Nat :=
  match power with
  | .ofNat e => num / (den * Nat.pow 10 e)
  | .negSucc e => num * Nat.pow 10 (e + 1) / den

/-- Compares a decimal with a quotient. -/
def Decimal.compare (d : Decimal) (num den : Nat) : Ordering :=
  let (a, b) := scale 10 d.digits d.exponent
  Ord.compare (a * den) (num * b)

/-- Twice the sum of two neighbours lies at or above four times the value: the lower is no nearer.
    -/
def upperNearer (lower upper : Decimal) (num den : Nat) : Bool :=
  let middle : Decimal := ⟨lower.digits + upper.digits, lower.exponent⟩
  match middle.compare (2 * num) den with
  | .lt => true
  | .eq => lower.digits % 2 == 1
  | .gt => false

/-- The value's neighbours on the grid of a number of digits, if one reads back: the nearer. -/
def onGrid (num den lowNum lowDen highNum highDen : Nat) (closed : Bool) (count : Nat) :
    Option Decimal :=
  let power := leadingPower num den - (count - 1 : Nat)
  let c := floorAt num den power
  let lower : Decimal := ⟨c, power⟩
  let upper : Decimal := ⟨c + 1, power⟩
  let inside (d : Decimal) : Bool :=
    (match d.compare lowNum lowDen with | .gt => true | .eq => closed | .lt => false)
    && (match d.compare highNum highDen with | .lt => true | .eq => closed | .gt => false)
  match inside lower, inside upper with
  | true, true => some (if upperNearer lower upper num den then upper else lower)
  | true, false => some lower
  | false, true => some upper
  | false, false => none

/-- The shortest decimal that reads back as a value other than zero, and of those the nearest. -/
def shortest (b : Binary) : Decimal :=
  let (num, den) := scale 2 (4 * b.mantissa) (b.exponent - 2)
  let (lowNum, lowDen) := scale 2 (4 * b.mantissa - (if b.narrow then 1 else 2)) (b.exponent - 2)
  let (highNum, highDen) := scale 2 (4 * b.mantissa + 2) (b.exponent - 2)
  let closed := b.mantissa % 2 == 0
  ((List.range 17).findSome? fun i =>
    onGrid num den lowNum lowDen highNum highDen closed (i + 1)).getD ⟨0, 0⟩

/-- Digits without the zeros at the end, and the number of digits before the decimal point. -/
def Decimal.layout (d : Decimal) : List Char × Int :=
  let cs := digitsOf d.digits
  ((cs.reverse.dropWhile (· == '0')).reverse, cs.length + d.exponent)

/-- A decimal with its point, positional when the point falls within sixteen digits of the first one
    and at most four zeros stand before it. -/
def layoutText (digits : List Char) (point : Int) : List Char :=
  if -4 < point && point ≤ 16 then
    if point ≤ 0 then '0' :: '.' :: List.replicate (-point).toNat '0' ++ digits
    else
      let n := point.toNat
      if digits.length ≤ n then digits ++ List.replicate (n - digits.length) '0' ++ ['.', '0']
      else digits.take n ++ '.' :: digits.drop n
  else
    let e := point - 1
    let mantissa := match digits with
      | [d] => [d]
      | d :: rest => d :: '.' :: rest
      | [] => []
    let power := digitsOf e.natAbs
    mantissa ++ 'e' :: (if e < 0 then '-' else '+') ::
      (List.replicate (2 - power.length) '0' ++ power)

/-- A float in the layout of reports. -/
def floatText (x : Float) : String :=
  match Binary.ofFloat? x with
  | none => if x.isNaN then "nan" else if x < 0 then "-inf" else "inf"
  | some b =>
    let sign := if b.negative then ['-'] else []
    if b.mantissa == 0 then String.ofList (sign ++ ['0', '.', '0'])
    else
      let (digits, point) := (shortest b).layout
      String.ofList (sign ++ layoutText digits point)

/-- A float rounded to a fixed number of decimal places, at least one. -/
def fixedText (places : Nat) (x : Float) : String :=
  match Binary.ofFloat? x with
  | none => if x.isNaN then "nan" else if x < 0 then "-inf" else "inf"
  | some b =>
    let (num, den) := b.fraction
    let cs := digitsOf (roundDiv (num * Nat.pow 10 places) den)
    let padded := List.replicate (places + 1 - cs.length) '0' ++ cs
    let whole := padded.length - places
    String.ofList ((if b.negative then ['-'] else []) ++ padded.take whole ++ '.' ::
      padded.drop whole)

end Docsmith
