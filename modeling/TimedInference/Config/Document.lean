import TimedInference.Config.Basic
import TimedInference.Toml.Reader

/-!
# Configuration documents

How a TOML document gives settings. Settings that are not given keep their defaults, and unknown ones
are passed over. A section may also be an array, which gives its settings in order, and a date counts
as a section that gives none; the kind of engine may be written as a table with an empty member of
that name.
-/

namespace TimedInference.Config

/-- A setting of a section: its name, and its place when the settings are given in order. -/
structure Setting where
  name : String
  place : Nat

/-- The node of a setting in the node of a section. It fails for a node that is no section. -/
def Setting.find? (s : Setting) : Toml.Node → Option (Option Toml.Node)
  | .table _ members => some (Toml.Members.get? members s.name)
  | .inlineTable members => some (Toml.Members.get? members s.name)
  | .array elements => some elements[s.place]?
  | .tables elements => some (elements[s.place]?.map (.table .header))
  | .date => some none
  | _ => none

/-- The value of a setting in a section that may be absent, read from its node or the default. -/
def Setting.read {α : Type} (s : Setting) (parse : Toml.Node → Option α) (default : α) :
    Option Toml.Node → Option α
  | none => some default
  | some part => do
    match ← s.find? part with
    | none => return default
    | some node => parse node

/-- The kind of engine of a name. -/
def kindNamed? (name : String) : Option EngineKind :=
  [EngineKind.diagrams, .worlds].find? fun k => k.name = name

/-- Whether a node holds nothing. -/
def isEmptyNode : Toml.Node → Bool
  | .array [] => true
  | .inlineTable [] => true
  | .table _ [] => true
  | .tables [] => true
  | _ => false

/-- The kind of engine that a node gives. -/
def kindOf? : Toml.Node → Option EngineKind
  | .string name => kindNamed? name
  | .inlineTable [(name, inner)] => if isEmptyNode inner then kindNamed? name else none
  | .table _ [(name, inner)] => if isEmptyNode inner then kindNamed? name else none
  | _ => none

/-- The count that a node gives. -/
def countOf? : Toml.Node → Option Nat
  | .integer n => if 0 ≤ n then some n.toNat else none
  | _ => none

/-- The truth value that a node gives. -/
def flagOf? : Toml.Node → Option Bool
  | .boolean b => some b
  | _ => none

/-- The text that a node gives. -/
def textOf? : Toml.Node → Option String
  | .string s => some s
  | _ => none

/-- The settings that a document gives. -/
def ofDocument? (document : Toml.Members) : Option Config := do
  let engine := document.get? "engine"
  let cache := document.get? "precomp"
  let logs := document.get? "observability"
  return {
    kind := ← Setting.read ⟨"kind", 0⟩ kindOf? default.kind engine
    maxChoices := ← Setting.read ⟨"max_enumeration_facts", 1⟩ countOf? default.maxChoices engine
    atomLimit := ← Setting.read ⟨"atom_limit", 2⟩ countOf? default.atomLimit engine
    parallelCompile := ← Setting.read ⟨"parallel_compile", 0⟩ flagOf? default.parallelCompile cache
    warnUnbound := ← Setting.read ⟨"warn_unbound_facts", 1⟩ flagOf? default.warnUnbound cache
    logLevel := ← Setting.read ⟨"log_level", 0⟩ textOf? default.logLevel logs
    jsonOutput := ← Setting.read ⟨"json_output", 1⟩ flagOf? default.jsonOutput logs }

/-- The settings that a text gives. -/
def ofText? (text : String) : Option Config := (Toml.ofText? text).bind ofDocument?

/-- The settings that a file gives, whose bytes must be a text. -/
def ofFile? (content : Option ByteArray) : Option Config :=
  (content.bind String.fromUTF8?).bind ofText?

end TimedInference.Config
