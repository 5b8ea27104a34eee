import TimedInference.Syntax.Construct

/-!
# Readers

A reader takes a place in a text to a value and the place after it, or fails. Alternatives are
ordered: the first one that succeeds is taken and is never reconsidered. Besides its result a reading
says how it changes the record of attempts, from which the message of a failure is made; the result
itself cannot depend on that record.
-/

namespace TimedInference.Syntax

/-- A place in a text: the number of characters before it, and those after it. -/
structure Cursor where
  offset : Nat
  rest : List Char

/-- The furthest place at which a construct was looked for in vain, and what was looked for there. -/
structure Attempts where
  offset : Nat
  tried : List Construct

namespace Attempts

/-- Nothing was looked for yet. -/
def none : Attempts := ⟨0, []⟩

/-- The number of constructs looked for at a place. -/
def count (a : Attempts) (offset : Nat) : Nat := if a.offset = offset then a.tried.length else 0

/-- The record after a construct could not be read at a place, from the record before the construct
was tried and the record its parts left. A construct replaces the parts that were looked for at its
own place, unless there is exactly one of them; places further on count more than its own. -/
def fail (construct : Construct) (offset : Nat) (before after : Attempts) : Attempts :=
  if after.count offset = before.count offset + 1 then after
  else if offset < after.offset then after
  else if after.offset < offset then ⟨offset, [construct]⟩
  else ⟨offset, after.tried.take (before.count offset) ++ [construct]⟩

end Attempts

/-- What a reader makes of a place: the result, and the change to the record of attempts. -/
structure Reading (α : Type) where
  result : Option (α × Cursor)
  attempts : Attempts → Attempts

/-- A reader of values. -/
def Reader (α : Type) : Type := Cursor → Reading α

namespace Reader

variable {α β : Type}

/-- Reads nothing. -/
protected def pure (a : α) : Reader α := fun c => ⟨some (a, c), id⟩

/-- Reads one thing and then another. -/
protected def bind (p : Reader α) (f : α → Reader β) : Reader β := fun c =>
  match p c with
  | ⟨none, n⟩ => ⟨none, n⟩
  | ⟨some (a, c'), n⟩ =>
    let r := f a c'
    ⟨r.result, fun t => r.attempts (n t)⟩

instance : Monad Reader where
  pure := Reader.pure
  bind := Reader.bind

/-- Fails. -/
def failure : Reader α := fun _ => ⟨none, id⟩

/-- The first reader, or the second from the same place when the first fails. -/
protected def orElse (p : Reader α) (q : Unit → Reader α) : Reader α := fun c =>
  match p c with
  | ⟨none, n⟩ =>
    let r := q () c
    ⟨r.result, fun t => r.attempts (n t)⟩
  | r => r

instance : OrElse (Reader α) := ⟨Reader.orElse⟩

/-- The reader's value, or the default when it fails. -/
def orDefault (p : Reader α) (default : α) : Reader α := p <|> pure default

/-- As many values as the reader gives in a row, at most `fuel`. -/
def many (p : Reader α) : Nat → Reader (List α)
  | 0 => pure []
  | fuel + 1 => orDefault (do let a ← p; let as ← many p fuel; return a :: as) []

/-- A construct: its failure is recorded. -/
def named (construct : Construct) (p : Reader α) : Reader α := fun c =>
  let r := p c
  { result := r.result
    attempts := fun t =>
      if r.result.isSome then r.attempts t
      else Attempts.fail construct c.offset t (r.attempts t) }

/-- The place that was reached. -/
def offset : Reader Nat := fun c => ⟨some (c.offset, c), id⟩

/-- The text after the given characters, when it begins with them. -/
def after? : List Char → List Char → Option (List Char)
  | [], cs => some cs
  | _ :: _, [] => none
  | e :: es, c :: cs => if e = c then after? es cs else none

/-- Reads exactly the given characters. -/
def exactly (expected : List Char) : Reader Unit := fun c =>
  ⟨(after? expected c.rest).map fun rest => ((), ⟨c.offset + expected.length, rest⟩), id⟩

/-- Reads one character of a class. -/
def one (p : Char → Bool) : Reader Char := fun c =>
  match c.rest with
  | [] => ⟨none, id⟩
  | x :: rest => if p x then ⟨some (x, ⟨c.offset + 1, rest⟩), id⟩ else ⟨none, id⟩

/-- Reads all characters of a class that stand in a row. -/
def run (p : Char → Bool) : Reader (List Char) := fun c =>
  let read := c.rest.takeWhile p
  ⟨some (read, ⟨c.offset + read.length, c.rest.dropWhile p⟩), id⟩

/-- Reads characters of a class that stand in a row, at least one. -/
def run1 (p : Char → Bool) : Reader (List Char) := do
  let first ← one p
  let rest ← run p
  return first :: rest

/-- Reads the end of the text. -/
def endOfInput : Reader Unit :=
  named .endOfInput fun c => if c.rest.isEmpty then ⟨some ((), c), id⟩ else ⟨none, id⟩

end Reader

end TimedInference.Syntax
