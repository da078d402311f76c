import Docsmith.Number.Decimal

namespace Docsmith

/-!
# Numbers of settings and delays

A number is an integer of any size or a float.  Arithmetic on two integers stays exact, and an
integer and a float are compared by their exact values.

* `Number`: the two sorts.
* `Number.mul`, `Number.min`, `Number.max`: arithmetic and order.
* `Number.toFloat`, `Number.text`: as a float and as text.
-/

/-- An integer or a float. -/
inductive Number where
  | int (n : Int)
  | float (x : Float)

namespace Number

/-- The nearest float. -/
def toFloat : Number → Float
  | int n => Float.ofInt n
  | float x => x

/-- The number in the layout of reports. -/
def text : Number → String
  | int n => toString n
  | float x => floatText x

/-- The product, exact for two integers. -/
def mul : Number → Number → Number
  | int a, int b => int (a * b)
  | a, b => float (a.toFloat * b.toFloat)

/-- Compares an integer with the exact value of a float; a float that is no number compares with
    nothing. -/
def compareInt (n : Int) (x : Float) : Option Ordering :=
  match Binary.ofFloat? x with
  | none => if x.isNaN then none else if x < 0 then some .gt else some .lt
  | some b =>
    let (num, den) := b.fraction
    let signed : Int := if b.negative then -num else num
    some (Ord.compare (n * den) signed)

/-- The first number is less than the second. -/
def lt : Number → Number → Bool
  | int a, int b => a < b
  | float a, float b => a < b
  | int a, float b => compareInt a b == some .lt
  | float a, int b => compareInt b a == some .gt

/-- The smaller number; the first when neither is smaller. -/
def min (a b : Number) : Number := if b.lt a then b else a

/-- The larger number; the first when neither is larger. -/
def max (a b : Number) : Number := if a.lt b then b else a

/-- The number is zero. -/
def isZero : Number → Bool
  | int n => n == 0
  | float x => x == 0

end Number

end Docsmith
