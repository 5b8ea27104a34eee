import TimedInference.Json.Reader
import TimedInference.Number.Binary64
import TimedInference.Toml.Node

/-!
# Reading TOML

Scanners for TOML 1.0 documents. Integers must fit in 64 bits, and brackets and the tables of one key
nest only to a fixed depth.
-/

namespace TimedInference.Toml

open Text (Scanner)
open Text.Scanner

/-! ## Blanks and lines -/

/-- White space within a line. -/
def isSpace (c : Char) : Bool := c == ' ' || c == '\t'

/-- The characters that may stand for themselves in comments and strings. -/
def isPlain (c : Char) : Bool := c == '\t' || (0x20 ≤ c.toNat && c.toNat ≠ 0x7F)

/-- Skips white space within a line. -/
def space : Scanner Unit := do discard (run isSpace)

/-- Takes the end of a line. -/
def newline : Scanner Unit := char '\n' <|> (do char '\r'; char '\n')

/-- Takes a comment. -/
def comment : Scanner Unit := do
  char '#'
  discard (run isPlain)

/-- Takes the end of the text. -/
def atEnd : Scanner Unit := do
  if (← peek?).isSome then failure

/-- Takes what may follow a statement in its line. -/
def lineEnd : Scanner Unit := do
  space
  orDefault comment ()
  newline <|> atEnd

/-- Skips white space, line ends and comments. -/
def blanks : Scanner Unit := do
  discard (many ((do discard (run1 isSpace)) <|> newline <|> (do comment; newline)) (← left))

/-! ## Strings -/

/-- Takes any character. -/
def any : Scanner Char := one fun _ => true

/-- Reads a number of digits in base sixteen. -/
def hexDigits : Nat → Nat → Scanner Nat
  | 0, value => return value
  | count + 1, value => do
    match Json.hexValue? (← any) with
    | some d => hexDigits count (value * 16 + d)
    | none => failure

/-- Reads a character by its number. -/
def character (digits : Nat) : Scanner Char := do
  let n ← hexDigits digits 0
  if n < 0xD800 ∨ (0xDFFF < n ∧ n < 0x110000) then return Char.ofNat n else failure

/-- Reads the rest of an escape. -/
def escape : Scanner Char := do
  match ← any with
  | 'b' => return '\x08'
  | 't' => return '\t'
  | 'n' => return '\n'
  | 'f' => return '\x0c'
  | 'r' => return '\r'
  | '"' => return '"'
  | '\\' => return '\\'
  | 'u' => character 4
  | 'U' => character 8
  | _ => failure

/-- Reads the rest of a string in double quotes. -/
def basicRest : Nat → Scanner (List Char)
  | 0 => failure
  | fuel + 1 => do
    match ← any with
    | '"' => return []
    | '\\' => return (← escape) :: (← basicRest fuel)
    | c => if isPlain c then return c :: (← basicRest fuel) else failure

/-- Reads the rest of a string in single quotes, where nothing is escaped. -/
def literalRest : Scanner (List Char) := do
  let cs ← run fun c => isPlain c && c != '\''
  char '\''
  return cs

/-- Takes the rest of a backslash at the end of a line, with all white space and line ends up to the
next character. -/
def continuation : Scanner Unit := do
  space
  newline
  discard (many ((do discard (run1 isSpace)) <|> newline) (← left))

/-- Reads the rest of a string over several lines in double or single quotes. Up to two quotes may
stand in the string and at its end; in double quotes there are escapes. -/
def multilineRest (quote : Char) : Nat → Scanner (List Char)
  | 0 => failure
  | fuel + 1 => do
    let c ← any
    if c = quote then
      let count := (← run (· == quote)).length + 1
      if count < 3 then return List.replicate count quote ++ (← multilineRest quote fuel)
      else if count ≤ 5 then return List.replicate (count - 3) quote
      else failure
    else if c = '\n' then return c :: (← multilineRest quote fuel)
    else if c = '\r' then
      char '\n'
      return '\n' :: (← multilineRest quote fuel)
    else if c = '\\' ∧ quote = '"' then
      match ← orDefault (some <$> escape) none with
      | some e => return e :: (← multilineRest quote fuel)
      | none =>
        continuation
        multilineRest quote fuel
    else if isPlain c then return c :: (← multilineRest quote fuel)
    else failure

/-- Reads a string over several lines; a line end right after the opening quotes does not count. -/
def multiline (quote : Char) : Scanner (List Char) := do
  exactly [quote, quote, quote]
  orDefault newline ()
  multilineRest quote ((← left) + 1)

/-- Reads a string in double quotes within a line. -/
def basic : Scanner (List Char) := do
  char '"'
  basicRest ((← left) + 1)

/-- Reads a string in single quotes within a line. -/
def literal : Scanner (List Char) := do
  char '\''
  literalRest

/-- Reads a string. -/
def stringChars : Scanner (List Char) := multiline '"' <|> basic <|> multiline '\'' <|> literal

/-! ## Keys -/

/-- The characters of a key without quotes. -/
def isKeyChar (c : Char) : Bool := c.isAlphanum || c == '_' || c == '-'

/-- Reads one part of a key, with white space around it. -/
def keyPart : Scanner String := do
  space
  let cs ← basic <|> literal <|> run1 isKeyChar
  space
  return String.ofList cs

/-- The number of parts that a key must not reach, and of brackets that must not be open at once. -/
def maxDepth : Nat := 80

/-- Reads a key, whose parts are separated by points. -/
def key : Scanner (List String) := do
  let first ← keyPart
  let rest ← many (do char '.'; keyPart) (← left)
  if maxDepth ≤ rest.length + 1 then failure
  return first :: rest

/-! ## Numbers and dates -/

/-- Reads digits of a class, with single underscores between them. -/
def digitsOf (p : Char → Bool) : Scanner (List Char) := do
  let first ← one p
  let rest ← many (one p <|> do char '_'; one p) (← left)
  return first :: rest

/-- Reads a sign; a plus is the default. -/
def sign : Scanner Bool := (do char '-'; return true) <|> orDefault (do char '+'; return false) false

/-- Reads the digits of a decimal integer, which begin with a zero only when there is no other. -/
def decimalDigits : Scanner (List Char) := do
  let digits ← digitsOf Char.isDigit
  if digits.length > 1 ∧ digits.head? = some '0' then failure
  return digits

/-- The number that digits write in a base. -/
def valueOf (base : Nat) (digits : List Char) : Nat :=
  digits.foldl (fun n c => n * base + (Json.hexValue? c).getD 0) 0

/-- An integer that fits in 64 bits. -/
def fitting (n : Int) : Scanner Node := if Time.Fits n then return .integer n else failure

/-- Reads an integer with a mark of its base. -/
def based (mark : Char) (base : Nat) : Scanner Node := do
  char '0'
  char mark
  let digits ← digitsOf fun c => (Json.hexValue? c).any (· < base)
  fitting (valueOf base digits)

/-- Reads an integer. -/
def integer : Scanner Node :=
  based 'x' 16 <|> based 'o' 8 <|> based 'b' 2 <|> do
    let negative ← sign
    let n := valueOf 10 (← decimalDigits)
    fitting (if negative then -n else n)

/-- Reads a floating point number: a fraction or an exponent must be there, or it is one of the special
values. A positive number must not be too large. -/
def float : Scanner Node := do
  let negative ← sign
  (do exactly "inf".toList; return .float) <|> (do exactly "nan".toList; return .float) <|> do
    let whole ← decimalDigits
    let fraction ← orDefault (do char '.'; digitsOf Char.isDigit) []
    let exponent ← orDefault (do
      discard (one fun c => c == 'e' || c == 'E')
      let negative ← sign
      let n := valueOf 10 (← digitsOf Char.isDigit)
      return some (if negative then -(n : Int) else n)) none
    if fraction = [] ∧ exponent.isNone then failure
    let d : Decimal := ⟨valueOf 10 (whole ++ fraction), exponent.getD 0 - fraction.length⟩
    if ¬negative ∧ Binary64.infinityBits ≤ Binary64.bitsOfDecimal d then failure
    return .float

/-- Reads a number of exactly so many digits, within a range. -/
def field (count low high : Nat) : Scanner Nat := do
  let digits ← (List.range count).mapM fun _ => one Char.isDigit
  let n := valueOf 10 digits
  if low ≤ n ∧ n ≤ high then return n else failure

/-- The number of days of a month. -/
def daysIn (year month : Nat) : Nat :=
  if month = 2 then
    if year % 4 = 0 ∧ (year % 100 ≠ 0 ∨ year % 400 = 0) then 29 else 28
  else if month = 4 ∨ month = 6 ∨ month = 9 ∨ month = 11 then 30
  else 31

/-- Takes a day. -/
def day : Scanner Unit := do
  let year ← field 4 0 9999
  char '-'
  let month ← field 2 1 12
  char '-'
  discard (field 2 1 (daysIn year month))

/-- Takes a time of day. -/
def timeOfDay : Scanner Unit := do
  discard (field 2 0 23)
  char ':'
  discard (field 2 0 59)
  char ':'
  discard (field 2 0 60)
  orDefault (do char '.'; discard (run1 Char.isDigit)) ()

/-- Takes a distance from universal time. -/
def zone : Scanner Unit :=
  (do discard (one fun c => c == 'Z' || c == 'z')) <|> do
    discard (one fun c => c == '+' || c == '-')
    discard (field 2 0 23)
    char ':'
    discard (field 2 0 59)

/-- Reads a day, a time of day, or both. -/
def date : Scanner Node := do
  (do
    day
    orDefault (do
      discard (one fun c => c == 'T' || c == 't' || c == ' ')
      timeOfDay
      orDefault zone ()) ()) <|> timeOfDay
  return .date

/-! ## Values -/

/-- Reads the elements of an array, whose opening bracket was taken: values separated by commas, and
perhaps a comma after the last. -/
def elements (value : Scanner Node) : Scanner (List Node) := do
  let first ← orDefault (do blanks; some <$> value) none
  match first with
  | none =>
    blanks
    char ']'
    return []
  | some v =>
    let rest ← many (do blanks; char ','; blanks; value) (← left)
    blanks
    orDefault (char ',') ()
    blanks
    char ']'
    return v :: rest

/-- Reads a key with its value. -/
def member (value : Scanner Node) : Scanner Statement := do
  let k ← key
  char '='
  space
  return .assign k (← value)

/-- Reads the members of a table within a line, whose opening brace was taken. -/
def inlineMembers (value : Scanner Node) : Scanner Members := do
  space
  let statements ← orDefault (do
    let first ← member value
    let rest ← many (do space; char ','; member value) (← left)
    return first :: rest) []
  space
  char '\x7d'
  match build statements [] [] with
  | some m => return m
  | none => failure

/-- Reads a value. The bound is on the brackets that may be open at once. -/
def value : Nat → Scanner Node
  | 0 => failure
  | depth + 1 => do
    match ← peek? with
    | some '[' =>
      char '['
      if depth = 0 then failure
      return .array (← elements (value depth))
    | some '\x7b' =>
      char '\x7b'
      if depth = 0 then failure
      return .inlineTable (← inlineMembers (value depth))
    | _ =>
      (do return .string (String.ofList (← stringChars)))
        <|> (do exactly "true".toList; return .boolean true)
        <|> (do exactly "false".toList; return .boolean false)
        <|> date <|> float <|> integer

/-! ## Documents -/

/-- Reads a header with the given brackets around its key. -/
def header (opening closing : String) : Scanner (List String) := do
  exactly opening.toList
  let k ← key
  exactly closing.toList
  return k

/-- Reads a line: a statement, or none. -/
def line : Scanner (Option Statement) := do
  space
  match ← peek? with
  | none => failure
  | some '[' =>
    let s ← (do return .element (← header "[[" "]]")) <|> (do return .table (← header "[" "]"))
    lineEnd
    return some s
  | some c =>
    if c = '#' ∨ c = '\n' ∨ c = '\r' then
      lineEnd
      return none
    else
      let s ← member (value maxDepth)
      lineEnd
      return some s

/-- Reads the statements of a document. -/
def statements : Scanner (List Statement) := do
  orDefault (char '\ufeff') ()
  let lines ← many line ((← left) + 1)
  space
  return lines.filterMap id

/-- The members of the document that a text writes. -/
def ofText? (text : String) : Option Members := do
  build (← whole? statements text) [] []

end TimedInference.Toml
