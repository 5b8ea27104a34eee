/-!
# JSON strings

The text of a JSON string: quotes, backslashes and control characters are escaped, by a short escape
where there is one, and everything else stands for itself.
-/

namespace TimedInference.Json

/-- The four digits of a control character in base sixteen. -/
def controlHex (n : Nat) : List Char := ['0', '0', Nat.digitChar (n / 16), Nat.digitChar (n % 16)]

/-- How a character is written in a JSON string. -/
def escapeChar (c : Char) : List Char :=
  if c = '"' then ['\\', '"']
  else if c = '\\' then ['\\', '\\']
  else if c = '\x08' then ['\\', 'b']
  else if c = '\x0c' then ['\\', 'f']
  else if c = '\n' then ['\\', 'n']
  else if c = '\r' then ['\\', 'r']
  else if c = '\t' then ['\\', 't']
  else if c.toNat < 0x20 then ['\\', 'u'] ++ controlHex c.toNat
  else [c]

/-- The text of a JSON string. -/
def string (s : String) : String := "\"" ++ String.ofList (s.toList.flatMap escapeChar) ++ "\""

end TimedInference.Json
