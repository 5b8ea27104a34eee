import Std.Data.ExtTreeMap.Lemmas
import TimedInference.Template.Event

/-!
# Binding declared facts to nodes

A circuit names its nodes by the texts of atoms. The declaration of a fact is bound to the node named
by the text of the fact without white space, probability and final point.
-/

namespace TimedInference

/-- The text after the first double colon, if there is one. -/
def afterSeparator? : List Char → Option (List Char)
  | [] => none
  | [_] => none
  | c :: d :: cs => if c = ':' ∧ d = ':' then some cs else afterSeparator? (d :: cs)

/-- The text without a point at its end. -/
def withoutFinalPoint (cs : List Char) : List Char :=
  if cs.getLast? = some '.' then cs.dropLast else cs

/-- The name of the node that a mock text is about. -/
def nodeName (mock : String) : String :=
  let squeezed := Text.squeeze mock.toList
  String.ofList (withoutFinalPoint ((afterSeparator? squeezed).getD squeezed))

/-- A declared fact whose weight events set. -/
structure TrackedFact where
  /-- The text of the declaration. -/
  mock : String
  /-- The text without white space, by which events are recognised. -/
  key : String
  node : Nat
  deriving DecidableEq

/-- The declared facts that have a node, and the texts of those that have none. -/
structure Binding where
  tracked : List TrackedFact
  unbound : List String
  deriving DecidableEq

namespace Binding

/-- The texts of declarations that differ in more than white space, each as it is first written. -/
def distinctMocks {α : Type} [Probability α] (declarations : List (Event α)) : List String :=
  (declarations.map Event.mock).eraseDupsBy fun a b => Text.normalize a == Text.normalize b

/-- The binding of declarations to named nodes. -/
def ofDeclarations {α : Type} [Probability α] (declarations : List (Event α))
    (named : Std.ExtTreeMap String Nat) : Binding :=
  let mocks := distinctMocks declarations
  { tracked := mocks.filterMap fun mock =>
      named[nodeName mock]?.map fun node => ⟨mock, Text.normalize mock, node⟩
    unbound := mocks.filter fun mock => named[nodeName mock]?.isNone }

end Binding

end TimedInference
