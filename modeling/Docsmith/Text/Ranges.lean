namespace Docsmith.Text

/-!
# Ranges of code points

Character classes of the Unicode standard are kept as lists of inclusive ranges.

* `inRanges`: membership in a list of ranges.
* `Stride`: a range of which only every `step`-th code point belongs to the class, the shape of
  the alphabets in which capital and small letters alternate.
* `inStrides`: membership in a list of strides.
-/

/-- Some inclusive range of the list contains the code point. -/
def inRanges (ranges : List (Nat × Nat)) (n : Nat) : Bool :=
  ranges.any fun r => r.1 ≤ n && n ≤ r.2

/-- The code points `first`, `first + step`, … up to `last`. -/
structure Stride where
  first : Nat
  last : Nat
  step : Nat

/-- The stride contains the code point. -/
def Stride.contains (s : Stride) (n : Nat) : Bool :=
  s.first ≤ n && n ≤ s.last && (n - s.first) % s.step == 0

/-- Some stride of the list contains the code point. -/
def inStrides (strides : List Stride) (n : Nat) : Bool :=
  strides.any (·.contains n)

end Docsmith.Text
