/-!
# Lines and columns

Where a character stands in a text. Lines and columns count from one, columns in characters; a line
ends after a line feed.
-/

namespace TimedInference.Text

/-- A line and a column, both counted from one. -/
structure Position where
  line : Nat
  column : Nat
  deriving DecidableEq, Inhabited

/-- The position after reading a character at a position. -/
def Position.step (p : Position) (c : Char) : Position :=
  if c = '\n' then ⟨p.line + 1, 1⟩ else ⟨p.line, p.column + 1⟩

/-- The position of the character before which `offset` characters stand. -/
def positionAt (cs : List Char) (offset : Nat) : Position :=
  (cs.take offset).foldl Position.step ⟨1, 1⟩

end TimedInference.Text
