/-!
# Texts kept in files

The text of a file's bytes, which must exist and be UTF-8.
-/

namespace TimedInference.Text

/-- The reason why a file that does not exist has no text. -/
def noSuchFile : String := "No such file or directory (os error 2)"

/-- The reason why bytes that are not UTF-8 are no text. -/
def notUnicode : String := "stream did not contain valid UTF-8"

/-- The text of a file that may not exist, or the reason why it has none. -/
def ofFile : Option ByteArray → Except String String
  | none => .error noSuchFile
  | some bytes =>
    match String.fromUTF8? bytes with
    | some text => .ok text
    | none => .error notUnicode

end TimedInference.Text
