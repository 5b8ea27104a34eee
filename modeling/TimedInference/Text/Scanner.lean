/-!
# Scanners

A scanner takes what is left of a text to a value and what is left after it, or fails.
-/

namespace TimedInference.Text

/-- A reader of values from the front of a text. -/
abbrev Scanner := StateT (List Char) Option

namespace Scanner

variable {α : Type}

/-- The character at the front, without taking it. -/
def peek? : Scanner (Option Char) := fun cs => some (cs.head?, cs)

/-- Takes one character of a class. -/
def one (p : Char → Bool) : Scanner Char
  | [] => none
  | c :: cs => if p c then some (c, cs) else none

/-- Takes a given character. -/
def char (c : Char) : Scanner Unit := do discard (one (· == c))

/-- Takes the given characters. -/
def exactly : List Char → Scanner Unit
  | [] => pure ()
  | c :: cs => do char c; exactly cs

/-- Takes all characters of a class that stand in a row. -/
def run (p : Char → Bool) : Scanner (List Char) := fun cs => some (cs.takeWhile p, cs.dropWhile p)

/-- Takes characters of a class that stand in a row, at least one. -/
def run1 (p : Char → Bool) : Scanner (List Char) := do return (← one p) :: (← run p)

/-- The scanner's value, or the default when it fails. -/
def orDefault (p : Scanner α) (default : α) : Scanner α := p <|> pure default

/-- As many values as a scanner gives in a row, at most `fuel`. -/
def many (p : Scanner α) : Nat → Scanner (List α)
  | 0 => pure []
  | fuel + 1 => orDefault (do return (← p) :: (← many p fuel)) []

/-- The number of characters left, a bound on everything that can be taken one after the other. -/
def left : Scanner Nat := fun cs => some (cs.length, cs)

/-- The value of a scanner that takes the whole text. -/
def whole? (p : Scanner α) (text : String) : Option α :=
  match p text.toList with
  | some (a, []) => some a
  | _ => none

end Scanner

end TimedInference.Text
