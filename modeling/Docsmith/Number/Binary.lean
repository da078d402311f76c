namespace Docsmith

/-!
# Binary floating-point values as exact numbers

* `Binary`: a sign, a mantissa and a power of two.
* `Binary.ofFloat?`: a finite float as such a value.
* `Binary.fraction`: its magnitude as a quotient of natural numbers.
* `roundDiv`: a quotient rounded to the nearest number, a half to the even one.
-/

/-- The value `mantissa · 2 ^ exponent` with a sign.  `narrow` says that the next smaller float is
    only half as far away as the next larger one. -/
structure Binary where
  negative : Bool
  mantissa : Nat
  exponent : Int
  narrow : Bool

/-- A finite float as an exact number. -/
def Binary.ofFloat? (x : Float) : Option Binary :=
  let bits := x.toBits.toNat
  let negative := Nat.pow 2 63 ≤ bits
  let biased : Nat := bits / Nat.pow 2 52 % Nat.pow 2 11
  let fraction := bits % Nat.pow 2 52
  if biased == 2047 then none
  else if biased == 0 then some ⟨negative, fraction, -1074, false⟩
  else some ⟨negative, fraction + Nat.pow 2 52, (biased : Int) - 1075, fraction == 0 && 1 < biased⟩

/-- A natural number times a power of a base, as a quotient. -/
def scale (base : Nat) (n : Nat) : Int → Nat × Nat
  | .ofNat e => (n * Nat.pow base e, 1)
  | .negSucc e => (n, Nat.pow base (e + 1))

/-- The magnitude as a quotient. -/
def Binary.fraction (b : Binary) : Nat × Nat := scale 2 b.mantissa b.exponent

/-- The quotient rounded to the nearest number, a half to the even one. -/
def roundDiv (num den : Nat) : Nat :=
  let q := num / den
  let r := num % den
  if 2 * r < den then q
  else if den < 2 * r then q + 1
  else if q % 2 == 0 then q else q + 1

end Docsmith
