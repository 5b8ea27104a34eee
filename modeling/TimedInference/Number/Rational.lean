import TimedInference.Number.Probability

/-!
# Exact probabilities

Fractions are numbers in which probabilities can be given and computed without rounding. A fraction is
written by its numerator and denominator.
-/

namespace TimedInference

/-- The fraction that a decimal is. -/
def Decimal.toRat (d : Decimal) : Rat :=
  mkRat (d.digits * Nat.pow 10 d.exponent.toNat : Nat) (Nat.pow 10 (-d.exponent).toNat)

instance : Probability Rat where
  zero := 0
  one := 1
  inUnit p := decide (0 ≤ p ∧ p ≤ 1)
  isZero p := decide (p = 0)
  ofDecimal := Decimal.toRat
  text := toString
  inUnit_zero := by decide
  text_zero := by decide +kernel
  ofDecimal_zero := by decide +kernel

end TimedInference
