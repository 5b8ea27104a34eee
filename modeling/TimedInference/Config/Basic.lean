import TimedInference.Engine.Basic

/-!
# Configuration

The settings of engines, caches and logs, with defaults for all of them.
-/

namespace TimedInference

/-- The settings of engines, caches and logs. -/
structure Config where
  /-- The kind of engine that compiles programs. -/
  kind : EngineKind
  /-- The greatest number of choices whose worlds are enumerated. -/
  maxChoices : Nat
  /-- The greatest number of possible atoms. -/
  atomLimit : Nat
  /-- Whether families are compiled in parallel, which changes no answer. -/
  parallelCompile : Bool
  /-- Whether declared facts without a node are reported. -/
  warnUnbound : Bool
  /-- The least level that a log shows. -/
  logLevel : String
  /-- Whether a log is written as JSON. -/
  jsonOutput : Bool
  deriving DecidableEq

namespace Config

/-- The settings that apply unless others are given. -/
def default : Config where
  kind := .diagrams
  maxChoices := Engine.defaultMaxChoices
  atomLimit := Engine.defaultAtomLimit
  parallelCompile := true
  warnUnbound := true
  logLevel := "info"
  jsonOutput := false

/-- The engine that settings ask for. -/
def engine {α : Type} [Probability α] (c : Config) : Engine α :=
  Engine.ofKind c.kind c.maxChoices c.atomLimit

end Config

end TimedInference
