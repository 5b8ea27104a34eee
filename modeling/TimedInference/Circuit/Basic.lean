import TimedInference.Circuit.Weights
import TimedInference.Grounding.GroundProgram

/-!
# Circuits

A circuit is a program compiled for repeated evaluation: its structure is fixed, and each evaluation
is given the weights of the choices.
-/

namespace TimedInference

/-- The probability of each query. -/
abbrev Evaluation (α : Type) := TermMap α

/-- A compiled program. -/
structure Circuit (α : Type) where
  /-- The node that the text of a probabilistic fact names. -/
  named : Std.ExtTreeMap String Nat
  /-- The weights that the program itself gives. -/
  baseline : Weights α
  /-- A measure of the structure, for reports. -/
  size : Nat
  /-- The probability of each query under weights. -/
  evaluate : Weights α → Except EngineError (Evaluation α)

end TimedInference
