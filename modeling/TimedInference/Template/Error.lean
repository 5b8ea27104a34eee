/-!
# Errors of templates

Why a template cannot be made, or an event of it.
-/

namespace TimedInference

/-- What a format leaves open. -/
inductive Placeholder where
  | probability
  | identifier
  | timestamp
  deriving DecidableEq

namespace Placeholder

/-- All placeholders, in the order in which a format is searched for them. -/
def all : List Placeholder := [probability, identifier, timestamp]

/-- The name of a placeholder. -/
def name : Placeholder → String
  | probability => "probability"
  | identifier => "identifier"
  | timestamp => "timestamp"

/-- A name between braces. -/
def braced (name : String) : String := "\x7b" ++ name ++ "\x7d"

/-- What stands for a placeholder in a format. -/
def mark (p : Placeholder) : List Char := (braced p.name).toList

end Placeholder

/-- An error of a template. -/
inductive TemplateError where
  /-- A format lacks a placeholder. -/
  | missing (format : String) (placeholder : Placeholder)
  /-- A format has a placeholder with another name. -/
  | unknown (format : String) (name : String)
  /-- An identifier is empty or white space. -/
  | emptyIdentifier
  /-- An event has no probability between zero and one. -/
  | improbable (identifier : String) (probability : String)
  deriving DecidableEq

/-- The message of an error. -/
def TemplateError.message : TemplateError → String
  | missing format p =>
    "template '" ++ format ++ "' is missing placeholder " ++ Placeholder.braced p.name
  | unknown format name =>
    "template '" ++ format ++ "' uses unknown placeholder " ++ Placeholder.braced name
  | emptyIdentifier => "template identifier must not be empty"
  | improbable identifier p =>
    "probability " ++ p ++ " for '" ++ identifier ++ "' is outside [0, 1]"

end TimedInference
