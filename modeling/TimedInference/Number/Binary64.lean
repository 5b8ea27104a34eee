import TimedInference.Number.Decimal

/-!
# Binary floating point of 64 bits

The bits of a finite magnitude write an exact number `significand * 2 ^ exponent`. This module reads
that number off the bits, and finds the bits of the magnitude nearest to a decimal, in exact
arithmetic: a decimal halfway between two magnitudes goes to the one with an even significand, and
one beyond the largest magnitude to infinity.
-/

namespace TimedInference

/-- A finite magnitude `significand * 2 ^ exponent`. -/
structure Binary64 where
  significand : Nat
  exponent : Int
  /-- Whether the next smaller magnitude is only half as far away as the next larger one. -/
  atBinade : Bool
  deriving DecidableEq, Inhabited

namespace Binary64

/-- The bits of infinity, which are also the first that write no finite magnitude. -/
def infinityBits : Nat := 2047 * Nat.pow 2 52

/-- The smallest exponent. -/
def minExponent : Int := -1074

/-- The finite magnitude that the bits below the sign write. -/
def ofBits (bits : Nat) : Binary64 :=
  let biased : Nat := bits / Nat.pow 2 52
  let fraction : Nat := bits % Nat.pow 2 52
  if biased = 0 then ⟨fraction, minExponent, false⟩
  else ⟨fraction + Nat.pow 2 52, (biased : Int) - 1075, fraction == 0 && biased > 1⟩

/-- The quotient rounded to the nearest integer, a half to the even one. -/
def roundHalfEven (num den : Nat) : Nat :=
  let q := num / den
  let r := num % den
  if 2 * r < den then q
  else if den < 2 * r then q + 1
  else if q % 2 = 0 then q else q + 1

/-- The bits of the magnitude nearest to the positive fraction `num / den`. -/
def bitsOfFraction (num den : Nat) : Nat :=
  let guess : Int := (num.log2 : Int) - den.log2
  let scale (e : Int) : Nat × Nat := (num * Nat.pow 2 (-e).toNat, den * Nat.pow 2 e.toNat)
  let leading := if (scale guess).2 ≤ (scale guess).1 then guess else guess - 1
  let exponent := max (leading - 52) minExponent
  let (n, d) := scale exponent
  min infinityBits ((exponent - minExponent).toNat * Nat.pow 2 52 + roundHalfEven n d)

/-- The bits of the magnitude nearest to a decimal. A decimal far outside the range of magnitudes is
recognised by its digits and exponent alone. -/
def bitsOfDecimal (d : Decimal) : Nat :=
  let reach : Int := Decimal.digitCount d.digits + d.exponent
  if d.digits = 0 ∨ reach < -330 then 0
  else if 310 < reach then infinityBits
  else bitsOfFraction (d.digits * Nat.pow 10 d.exponent.toNat) (Nat.pow 10 (-d.exponent).toNat)

end Binary64

/-- The floating point number nearest to a decimal. -/
def Decimal.toFloat (d : Decimal) : Float := Float.ofBits (UInt64.ofNat (Binary64.bitsOfDecimal d))

end TimedInference
