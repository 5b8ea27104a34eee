import TimedInference.Number.Shortest

/-!
# Layouts of floating point texts

Every floating point text is made of the shortest digits that read back. A layout says which numbers
are written with an exponent, how that exponent and whole numbers look, and what stands for the
values that are not finite.
-/

namespace TimedInference

/-- How floating point numbers are written. -/
structure Layout where
  /-- The least exponent of the leading digit that is written positionally, if there is a least. -/
  positionalFrom : Option Int
  /-- The first exponent of the leading digit that is no longer written positionally, if any. -/
  positionalBelow : Option Int
  /-- Written after a whole number in positional form. -/
  wholeEnd : String
  /-- Written before a nonnegative exponent. -/
  exponentPlus : String
  /-- Which of two equally near shortest decimals is written. -/
  tie : Tie
  nan : String
  infinity : String
  negativeInfinity : String

namespace Layout

/-- The layout of numbers in program text and in messages: never an exponent, and whole numbers
without a point. -/
def plain : Layout where
  positionalFrom := none
  positionalBelow := none
  wholeEnd := ""
  exponentPlus := ""
  tie := .up
  nan := "NaN"
  infinity := "inf"
  negativeInfinity := "-inf"

/-- The layout of numbers in descriptions of values: whole numbers keep a point, and very small and
very large numbers have an exponent. -/
def described : Layout where
  positionalFrom := some (-4)
  positionalBelow := some 16
  wholeEnd := ".0"
  exponentPlus := ""
  tie := .up
  nan := "NaN"
  infinity := "inf"
  negativeInfinity := "-inf"

/-- The layout of numbers in JSON: whole numbers keep a point, very small and very large numbers have
a signed exponent, and what is not finite is `null`. -/
def json : Layout where
  positionalFrom := some (-5)
  positionalBelow := some 16
  wholeEnd := ".0"
  exponentPlus := "+"
  tie := .even
  nan := "null"
  infinity := "null"
  negativeInfinity := "null"

/-- The digits with the point after the first `point` of them, zeros filling up on either side. -/
def positional (l : Layout) (digits : List Char) (point : Int) : String :=
  if point ≤ 0 then "0." ++ String.ofList (List.replicate (-point).toNat '0' ++ digits)
  else
    let n := point.toNat
    if digits.length ≤ n then
      String.ofList (digits ++ List.replicate (n - digits.length) '0') ++ l.wholeEnd
    else String.ofList (digits.take n) ++ "." ++ String.ofList (digits.drop n)

/-- The digits with the point after the first and the exponent of that first digit. -/
def exponential (l : Layout) (digits : List Char) (exponent : Int) : String :=
  let rest := digits.drop 1
  let mantissa := String.ofList (digits.take 1) ++
    if rest = [] then "" else "." ++ String.ofList rest
  mantissa ++ "e" ++ (if 0 ≤ exponent then l.exponentPlus else "") ++ toString exponent

/-- Whether a number whose leading digit has this exponent is written positionally. -/
def isPositional (l : Layout) (exponent : Int) : Bool :=
  l.positionalFrom.all (· ≤ exponent) && l.positionalBelow.all (exponent < ·)

/-- The text of a finite magnitude. -/
def magnitude (l : Layout) (bits : Nat) : String :=
  if bits = 0 then "0" ++ l.wholeEnd
  else
    let d := (Binary64.ofBits bits).shortest l.tie
    let digits := Nat.toDigits 10 d.digits
    let point := digits.length + d.exponent
    if l.isPositional (point - 1) then l.positional digits point
    else l.exponential digits (point - 1)

/-- The text of a floating point number. -/
def text (l : Layout) (x : Float) : String :=
  let bits := x.toBits.toNat
  let negative := Nat.pow 2 63 ≤ bits
  let magnitudeBits := bits % Nat.pow 2 63
  if Binary64.infinityBits < magnitudeBits then l.nan
  else if magnitudeBits = Binary64.infinityBits then
    if negative then l.negativeInfinity else l.infinity
  else (if negative then "-" else "") ++ l.magnitude magnitudeBits

end Layout

end TimedInference
