/-!
# Decimals

An exact nonnegative decimal and the form in which texts write one: digits, then perhaps a point
and digits, then perhaps an exponent.
-/

namespace TimedInference

/-- The number `digits * 10 ^ exponent`. -/
structure Decimal where
  digits : Nat
  exponent : Int
  deriving DecidableEq, Inhabited

namespace Decimal

/-- The number that a list of decimal digits writes. -/
def ofDigits (cs : List Char) : Nat := cs.foldl (fun n c => 10 * n + (c.toNat - '0'.toNat)) 0

/-- The number of decimal digits of `n`; zero has one. -/
def digitCount (n : Nat) : Nat := (Nat.toDigits 10 n).length

/-- Reads an exponent part: nothing, or `e` with an optional sign and digits. -/
def readExponent? : List Char → Option Int
  | [] => some 0
  | c :: cs =>
    if c = 'e' ∨ c = 'E' then
      match cs with
      | '-' :: ds => magnitude? ds |>.map fun n => -(n : Int)
      | '+' :: ds => magnitude? ds |>.map fun n => (n : Int)
      | ds => magnitude? ds |>.map fun n => (n : Int)
    else none
where
  /-- Reads one digit or more, and nothing else. -/
  magnitude? (ds : List Char) : Option Nat :=
    if ds ≠ [] ∧ ds.all Char.isDigit then some (ofDigits ds) else none

/-- Reads a decimal text: digits, an optional fraction and an optional exponent. -/
def read? (cs : List Char) : Option Decimal :=
  let whole := cs.takeWhile Char.isDigit
  if whole = [] then none
  else
    match cs.dropWhile Char.isDigit with
    | '.' :: rest =>
      let fraction := rest.takeWhile Char.isDigit
      if fraction = [] then none
      else
        (readExponent? (rest.dropWhile Char.isDigit)).map fun e =>
          ⟨ofDigits (whole ++ fraction), e - fraction.length⟩
    | rest => (readExponent? rest).map fun e => ⟨ofDigits whole, e⟩

end Decimal

end TimedInference
