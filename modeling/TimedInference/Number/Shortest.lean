import TimedInference.Number.Binary64

/-!
# Shortest decimals

The shortest decimal that reads back as a given binary magnitude. All decimals between the midpoints
to the neighbouring magnitudes read back as it, the midpoints themselves exactly when its
significand is even. For one digit, two, and so on, the value's two neighbours among the decimals of
that many digits are tried; the first count of digits at which one of them reads back is taken, and
of two that do, the nearer.
-/

namespace TimedInference

/-- Where a value exactly between two shortest decimals goes. -/
inductive Tie where
  /-- To the larger one. -/
  | up
  /-- To the one whose last digit is even. -/
  | even
  deriving DecidableEq

namespace Binary64

/-- The exponent of ten of the leading digit of the positive fraction `num / den`. -/
def leadingTen (num den : Nat) : Int :=
  if den ≤ num then (Decimal.digitCount (num / den) : Int) - 1
  else
    -- `den / num < 10 ^ k` holds for the number of digits of the quotient
    let k := Decimal.digitCount (den / num)
    if den ≤ num * Nat.pow 10 (k - 1) then -((k : Int) - 1) else -(k : Int)

/-- Which of the multiples `below` and `below + 1` of `unit` a value in between stands for, when at
least one of them lies between `low` and `high`; the ends count when `closed`. -/
def choose? (tie : Tie) (closed : Bool) (low value high unit : Nat) : Option Nat :=
  let below := value / unit
  let inside (n : Nat) : Bool :=
    if closed then low ≤ n * unit && n * unit ≤ high else low < n * unit && n * unit < high
  match inside below, inside (below + 1) with
  | false, false => none
  | true, false => some below
  | false, true => some (below + 1)
  | true, true =>
    let twice := 2 * (value - below * unit)
    if twice < unit then some below
    else if unit < twice then some (below + 1)
    else
      match tie with
      | .up => some (below + 1)
      | .even => some (if below % 2 = 0 then below else below + 1)

/-- Drops zeros from the end of the digits, at most `fuel` of them. -/
def stripZeros : Nat → Decimal → Decimal
  | 0, d => d
  | fuel + 1, d =>
    if d.digits ≠ 0 ∧ d.digits % 10 = 0 then stripZeros fuel ⟨d.digits / 10, d.exponent + 1⟩ else d

/-- The shortest decimal that reads back as a positive magnitude. -/
def shortest (tie : Tie) (b : Binary64) : Decimal :=
  -- four times the significand, so that the midpoints are whole in the same unit
  let value := 4 * b.significand
  let low := if b.atBinade then value - 1 else value - 2
  let high := value + 2
  let closed := b.significand % 2 == 0
  let up := Nat.pow 2 (b.exponent - 2).toNat
  let den := Nat.pow 2 (2 - b.exponent).toNat
  let leading := leadingTen (value * up) den
  let attempt (count : Nat) : Option Decimal :=
    let exponent := leading - count
    let scale := up * Nat.pow 10 (-exponent).toNat
    let unit := den * Nat.pow 10 exponent.toNat
    (choose? tie closed (low * scale) (value * scale) (high * scale) unit).map fun n =>
      stripZeros 20 ⟨n, exponent⟩
  ((List.range 17).findSome? attempt).getD ⟨0, 0⟩

end Binary64

end TimedInference
