import TimedInference.Json.Reader
import TimedInference.Json.Text
import TimedInference.Term.Basic

/-!
# The JSON form of terms

A variable is `{"Var": name}`, an integer `{"Int": value}` and a compound
`{"Compound": {"functor": name, "args": [...]}}`. Writing puts the functor first and no white space.
Reading takes the two fields of a compound in any order and skips other fields, and also takes an array
of the two; a field must not be missing or repeated. At most a fixed number of brackets may be open at
once.
-/

namespace TimedInference.Term

open Text (Scanner)
open Text.Scanner

/-! ## Writing -/

/-- An object with one member. -/
private def tagged (name value : String) : String :=
  "\x7b" ++ Json.string name ++ ":" ++ value ++ "\x7d"

mutual

/-- The JSON form of a term. -/
def json : Term → String
  | var x => tagged "Var" (Json.string x)
  | int n => tagged "Int" (toString n)
  | compound f ts =>
    tagged "Compound" <|
      "\x7b" ++ Json.string "functor" ++ ":" ++ Json.string f ++ "," ++ Json.string "args" ++ ":" ++
        "[" ++ argsJson ts ++ "]\x7d"

/-- The JSON forms of terms, separated by commas. -/
def argsJson : List Term → String
  | [] => ""
  | [t] => t.json
  | t :: u :: us => t.json ++ "," ++ argsJson (u :: us)

end

/-! ## Reading -/

/-- The fields of a compound read so far. -/
structure Fields where
  functor : Option String
  args : Option (List Term)

/-- The number of brackets that may be open at once. -/
def maxOpen : Nat := 127

/-- Reads one field of a compound. -/
def readField (args : Scanner (List Term)) (known : Fields) : Scanner Fields := do
  let key ← Json.readString
  Json.mark ':'
  if key = "functor" then
    if known.functor.isSome then failure
    return { known with functor := some (← Json.readString) }
  else if key = "args" then
    if known.args.isSome then failure
    return { known with args := some (← args) }
  else
    Json.skipValue (← left)
    return known

/-- Reads further fields, each after a comma. -/
def readFields (args : Scanner (List Term)) : Nat → Fields → Scanner Fields
  | 0, known => pure known
  | fuel + 1, known => do
    Json.space
    match ← peek? with
    | some ',' =>
      char ','
      readFields args fuel (← readField args known)
    | _ => return known

/-- Reads the functor and the arguments of a compound, as the members of an object or the elements of
an array, whose opening bracket is ahead. -/
def readParts (args : Scanner (List Term)) : Scanner (String × List Term) := do
  match ← peek? with
  | some '[' =>
    char '['
    let functor ← Json.readString
    Json.mark ','
    let ts ← args
    Json.mark ']'
    return (functor, ts)
  | _ =>
    char '\x7b'
    let first ← readField args ⟨none, none⟩
    let known ← readFields args (← left) first
    Json.mark '\x7d'
    match known.functor, known.args with
    | some f, some ts => return (f, ts)
    | _, _ => failure

/-- Reads a term, when the given number of brackets may still be opened. -/
def readJson : Nat → Scanner Term
  | 0 => failure
  | opens + 1 => do
    Json.mark '\x7b'
    let tag ← Json.readString
    Json.mark ':'
    let t ←
      if tag = "Var" then var <$> Json.readString
      else if tag = "Int" then int <$> Json.readInteger
      else if tag = "Compound" then do
        Json.space
        match opens with
        | 0 => failure
        | opens + 1 =>
          let (f, ts) ← readParts <| do
            Json.mark '['
            match opens with
            | 0 => failure
            | opens + 1 => Json.sequence ']' (readJson opens)
          pure (compound f ts)
      else failure
    Json.mark '\x7d'
    return t

/-- The term whose JSON form a text is. -/
def ofJson? (text : String) : Option Term :=
  whole? (do let t ← readJson maxOpen; Json.space; return t) text

end TimedInference.Term
