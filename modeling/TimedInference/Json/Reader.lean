import TimedInference.Number.Decimal
import TimedInference.Text.Scanner
import TimedInference.Time

/-!
# Reading JSON

Scanners for the parts of a JSON text, which follow its grammar strictly: no comma before a closing
bracket, no zero in front of a number, no control characters in strings. Strings are decoded, and
every surrogate in an escape must have its partner; a value that is only skipped may hold any
escapes. The members of objects and the elements of arrays are read with a given scanner for values.
-/

namespace TimedInference.Json

open Text (Scanner)
open Text.Scanner

/-- The white space of JSON. -/
def isSpace (c : Char) : Bool := c == ' ' || c == '\n' || c == '\t' || c == '\r'

/-- Skips white space. -/
def space : Scanner Unit := do discard (run isSpace)

/-- Takes a character after white space. -/
def mark (c : Char) : Scanner Unit := do space; char c

/-! ## Strings -/

/-- The value of a digit in base sixteen. -/
def hexValue? (c : Char) : Option Nat :=
  if c.isDigit then some (c.toNat - '0'.toNat)
  else if 'a' ≤ c ∧ c ≤ 'f' then some (c.toNat - 'a'.toNat + 10)
  else if 'A' ≤ c ∧ c ≤ 'F' then some (c.toNat - 'A'.toNat + 10)
  else none

/-- The value of four digits in base sixteen. -/
def hexUnit? (a b c d : Char) : Option Nat := do
  return (((← hexValue? a) * 16 + (← hexValue? b)) * 16 + (← hexValue? c)) * 16 + (← hexValue? d)

/-- The character of a short escape. -/
def shortEscape? (c : Char) : Option Char :=
  if c = '"' ∨ c = '\\' ∨ c = '/' then some c
  else if c = 'b' then some '\x08'
  else if c = 'f' then some '\x0c'
  else if c = 'n' then some '\n'
  else if c = 'r' then some '\r'
  else if c = 't' then some '\t'
  else none

/-- Whether a number is the first of a pair of surrogates. -/
def isHigh (n : Nat) : Bool := 0xD800 ≤ n && n ≤ 0xDBFF

/-- Whether a number is the second of a pair of surrogates. -/
def isLow (n : Nat) : Bool := 0xDC00 ≤ n && n ≤ 0xDFFF

/-- Decodes the rest of a string, up to the quote that ends it. -/
def decode : List Char → Option (List Char × List Char)
  | [] => none
  | c :: cs =>
    if c = '"' then some ([], cs)
    else if c ≠ '\\' then
      if c.toNat < 0x20 then none else (decode cs).map fun r => (c :: r.1, r.2)
    else
      match cs with
      | 'u' :: p :: q :: r :: s :: '\\' :: 'u' :: t :: u :: v :: w :: rest =>
        match hexUnit? p q r s, hexUnit? t u v w with
        | some m, some n =>
          if isHigh m then
            if isLow n then
              let code := 0x10000 + (m - 0xD800) * 0x400 + (n - 0xDC00)
              (decode rest).map fun r => (Char.ofNat code :: r.1, r.2)
            else none
          else if isLow m then none
          else (decode ('\\' :: 'u' :: t :: u :: v :: w :: rest)).map fun r => (Char.ofNat m :: r.1, r.2)
        | _, _ => none
      | 'u' :: p :: q :: r :: s :: rest =>
        match hexUnit? p q r s with
        | some m =>
          if isHigh m || isLow m then none
          else (decode rest).map fun r => (Char.ofNat m :: r.1, r.2)
        | none => none
      | e :: rest =>
        match shortEscape? e with
        | some c => (decode rest).map fun r => (c :: r.1, r.2)
        | none => none
      | [] => none

/-- Skips the rest of a string, up to the quote that ends it. -/
def skipString : List Char → Option (List Char)
  | [] => none
  | c :: cs =>
    if c = '"' then some cs
    else if c ≠ '\\' then if c.toNat < 0x20 then none else skipString cs
    else
      match cs with
      | 'u' :: p :: q :: r :: s :: rest => if (hexUnit? p q r s).isSome then skipString rest else none
      | e :: rest => if (shortEscape? e).isSome then skipString rest else none
      | [] => none

/-- Reads a string after white space. -/
def readString : Scanner String := do
  mark '"'
  return String.ofList (← decode)

/-! ## Numbers -/

/-- Takes the digits of an integer: a zero, or digits that do not begin with one. -/
def wholeDigits : Scanner (List Char) := do
  let digits ← run1 Char.isDigit
  if digits.length > 1 ∧ digits.head? = some '0' then failure
  return digits

/-- Reads an integer of 64 bits after white space. Numbers with a fraction or an exponent are no
integers, and neither is a zero with a sign. -/
def readInteger : Scanner Int := do
  space
  let negative ← orDefault (do char '-'; return true) false
  let n := Decimal.ofDigits (← wholeDigits)
  match ← peek? with
  | some c => if c = '.' ∨ c = 'e' ∨ c = 'E' then failure
  | none => pure ()
  let value : Int := if negative then -n else n
  if (negative ∧ n = 0) ∨ ¬Time.Fits value then failure
  return value

/-- Skips a number. -/
def skipNumber : Scanner Unit := do
  orDefault (char '-') ()
  discard wholeDigits
  match ← peek? with
  | some '.' => char '.'; discard (run1 Char.isDigit)
  | _ => pure ()
  match ← peek? with
  | some 'e' | some 'E' =>
    discard (one fun _ => true)
    orDefault (discard (one fun c => c == '+' || c == '-')) ()
    discard (run1 Char.isDigit)
  | _ => pure ()

/-! ## Arrays and objects -/

/-- Reads what follows an opening bracket: values separated by commas, up to the closing bracket. -/
def sequence {α : Type} (close : Char) (value : Scanner α) : Scanner (List α) := do
  space
  if (← peek?) = some close then
    char close
    return []
  let first ← value
  let rest ← many (do mark ','; value) (← left)
  mark close
  return first :: rest

/-- Skips a value of any kind. The bound is on the depth of its nesting. -/
def skipValue : Nat → Scanner Unit
  | 0 => failure
  | fuel + 1 => do
    space
    match ← peek? with
    | some 'n' => exactly "null".toList
    | some 't' => exactly "true".toList
    | some 'f' => exactly "false".toList
    | some '"' =>
      char '"'
      skipRest
    | some '[' =>
      char '['
      discard (sequence ']' (skipValue fuel))
    | some '\x7b' =>
      char '\x7b'
      discard (sequence '\x7d' do
        mark '"'
        skipRest
        mark ':'
        skipValue fuel)
    | _ => skipNumber
where
  /-- Skips the rest of a string. -/
  skipRest : Scanner Unit := fun cs => (skipString cs).map fun rest => ((), rest)

end TimedInference.Json
