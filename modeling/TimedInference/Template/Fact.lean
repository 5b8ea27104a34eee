import Std.Data.ExtTreeSet.Lemmas
import TimedInference.Number.Probability
import TimedInference.Template.Error
import TimedInference.Text.Blank
import TimedInference.Text.Replace

/-!
# Fact templates

A family of probabilistic facts that differ in their timestamp, written by filling in the placeholders
of a format: first the identifier, then the timestamp and then the probability. A later placeholder is
also filled in where an earlier text has brought it in.
-/

namespace TimedInference

/-- A family of facts. -/
structure FactTemplate where
  identifier : String
  format : String
  deriving DecidableEq

namespace FactTemplate

/-- A fact `p::identifier(t).` -/
def defaultFormat : String :=
  Placeholder.braced "probability" ++ "::" ++ Placeholder.braced "identifier" ++ "(" ++
    Placeholder.braced "timestamp" ++ ")."

/-- The names between an opening and a closing brace that have no other brace between them. The first
argument is the name read since the last opening brace, backwards, if there is one. -/
def placeholderNames : Option (List Char) → List Char → List String
  | _, [] => []
  | none, c :: cs => placeholderNames (if c = '\x7b' then some [] else none) cs
  | some name, c :: cs =>
    if c = '\x7b' then placeholderNames (some []) cs
    else if c = '\x7d' then String.ofList name.reverse :: placeholderNames none cs
    else placeholderNames (some (c :: name)) cs

/-- Checks that a format has every placeholder, and no other. The unknown placeholder that is reported
is the first in the order of names. -/
def checkFormat (format : String) : Except TemplateError Unit :=
  let found : Std.ExtTreeSet String := Std.ExtTreeSet.ofList (placeholderNames none format.toList)
  match found.toList.find? fun name => !(Placeholder.all.map Placeholder.name).contains name with
  | some name => .error (.unknown format name)
  | none =>
    match Placeholder.all.find? fun p => !found.contains p.name with
    | some p => .error (.missing format p)
    | none => .ok ()

/-- The template with an identifier and a format. -/
def withFormat (identifier format : String) : Except TemplateError FactTemplate := do
  if Text.isBlankText identifier then throw .emptyIdentifier
  checkFormat format
  return ⟨identifier, format⟩

/-- The template with an identifier and the default format. -/
def ofIdentifier (identifier : String) : Except TemplateError FactTemplate :=
  withFormat identifier defaultFormat

variable {α : Type} [Probability α]

/-- The text of a placeholder. -/
def filling (t : FactTemplate) (time : Int) (p : α) : Placeholder → List Char
  | .identifier => t.identifier.toList
  | .timestamp => (toString time).toList
  | .probability => (Probability.text p).toList

/-- The text with a placeholder filled in. -/
def fill (t : FactTemplate) (time : Int) (p : α) (cs : List Char) (h : Placeholder) : List Char :=
  Text.replace h.mark (t.filling time p h) cs

/-- The text of the fact at a time with a probability. -/
def render (t : FactTemplate) (time : Int) (p : α) : String :=
  String.ofList <|
    [Placeholder.identifier, .timestamp, .probability].foldl (t.fill time p) t.format.toList

/-- The text of the fact at a time with probability zero, by which declarations and events of the same
fact are recognised. -/
def mock (α : Type) [Probability α] (t : FactTemplate) (time : Int) : String := t.render time (0 : α)

end FactTemplate

end TimedInference
