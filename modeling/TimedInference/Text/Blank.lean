/-!
# White space

The characters with the Unicode property `White_Space`, and texts without them. Names and keys are
compared after every white space character has been removed.
-/

namespace TimedInference.Text

/-- The ranges of characters with the property `White_Space`, both ends included. -/
def blankRanges : List (Nat × Nat) :=
  [(0x9, 0xD), (0x20, 0x20), (0x85, 0x85), (0xA0, 0xA0), (0x1680, 0x1680), (0x2000, 0x200A),
    (0x2028, 0x2029), (0x202F, 0x202F), (0x205F, 0x205F), (0x3000, 0x3000)]

/-- Whether a character is white space. -/
def isBlank (c : Char) : Bool := blankRanges.any fun r => r.1 ≤ c.toNat && c.toNat ≤ r.2

/-- Whether a text holds nothing but white space. -/
def isBlankText (s : String) : Bool := s.toList.all isBlank

/-- The characters that are not white space. -/
def squeeze (cs : List Char) : List Char := cs.filter fun c => !isBlank c

/-- The text without its white space. -/
def normalize (s : String) : String := String.ofList (squeeze s.toList)

@[simp] theorem squeeze_append (cs ds : List Char) :
    squeeze (cs ++ ds) = squeeze cs ++ squeeze ds := by
  simp [squeeze]

end TimedInference.Text
