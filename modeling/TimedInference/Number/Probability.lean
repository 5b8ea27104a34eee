import TimedInference.Number.Layout

/-!
# The arithmetic of probabilities

Programs, circuits and caches work with any type of numbers that can be added, subtracted,
multiplied, compared with the unit interval, read from a decimal and written. Floating point numbers
are one such type; exact fractions are another.
-/

namespace TimedInference

/-- A type of numbers in which probabilities are given and computed. -/
class Probability (α : Type) extends Zero α, One α, Add α, Sub α, Mul α where
  /-- Whether a number lies between zero and one, both included. -/
  inUnit : α → Bool
  /-- Whether a number is zero. -/
  isZero : α → Bool
  /-- The number nearest to a decimal. -/
  ofDecimal : Decimal → α
  /-- The text of a number, as programs write it. -/
  text : α → String
  /-- Zero is a probability. -/
  inUnit_zero : inUnit 0 = true
  /-- Zero is written as one digit. -/
  text_zero : text 0 = "0"
  /-- The decimal zero is zero. -/
  ofDecimal_zero : ofDecimal ⟨0, 0⟩ = 0

instance : Probability Float where
  zero := 0.0
  one := 1.0
  inUnit p := 0.0 ≤ p && p ≤ 1.0
  isZero p := p == 0.0
  ofDecimal := Decimal.toFloat
  text := Layout.plain.text
  inUnit_zero := by decide
  text_zero := by decide +kernel
  ofDecimal_zero := by decide +kernel

end TimedInference
