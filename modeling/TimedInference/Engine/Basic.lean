import TimedInference.Circuit.Diagrams
import TimedInference.Circuit.Worlds
import TimedInference.Syntax.Resolve

/-!
# Engines

An engine compiles program texts to circuits. There are two kinds: one compiles to decision diagrams,
whose evaluation takes time linear in their size, and one enumerates worlds, which serves as a
reference for small programs.
-/

namespace TimedInference

/-- The kinds of engines. -/
inductive EngineKind where
  | diagrams
  | worlds
  deriving DecidableEq

/-- The name of a kind of engine. -/
def EngineKind.name : EngineKind → String
  | diagrams => "bdd"
  | worlds => "enumeration"

/-- Compiles program texts to circuits. -/
structure Engine (α : Type) where
  name : String
  compile : String → Logged EngineError (Circuit α)

namespace Engine

/-- The greatest number of possible atoms unless one is given. -/
def defaultAtomLimit : Nat := 100000

/-- The greatest number of choices whose worlds are enumerated unless one is given. -/
def defaultMaxChoices : Nat := 20

variable {α : Type} [Probability α]

/-- The ground program of a program text. -/
def groundText (atomLimit : Nat) (text : String) : Logged EngineError (GroundProgram α) := do
  let p : Program α ← Program.ofText text
  p.ground atomLimit

/-- The engine that compiles to diagrams. -/
def diagrams (atomLimit : Nat) : Engine α where
  name := EngineKind.diagrams.name
  compile text := do
    let g ← groundText atomLimit text
    let c := (DiagramCircuit.compile g).toCircuit
    Logged.report (.diagramCompiled EngineKind.diagrams.name c.size g.choices.length)
    return c

/-- The engine that enumerates worlds. -/
def worlds (maxChoices atomLimit : Nat) : Engine α where
  name := EngineKind.worlds.name
  compile text := do
    let g ← groundText atomLimit text
    let c := (← WorldCircuit.compile g maxChoices).toCircuit
    Logged.report (.worldsCompiled EngineKind.worlds.name c.size)
    return c

/-- The engine of a kind with limits. -/
def ofKind (kind : EngineKind) (maxChoices atomLimit : Nat) : Engine α :=
  match kind with
  | .diagrams => diagrams atomLimit
  | .worlds => worlds maxChoices atomLimit

end Engine

end TimedInference
