import Std.Data.HashMap

/-!
# Stores of decision diagrams

A diagram is a node of a store: false, true, or a decision on a variable between two diagrams whose
variables are all larger. A store holds each decision once and never one between equal diagrams, so
diagrams of the same Boolean function are the same node. A diagram is referred to by the number of its
node. Nodes are numbered in the order in which they were made, from two on; zero and one are false and
true. What a diagram decides does not depend on any weights.
-/

namespace TimedInference

namespace Diagram

/-- The diagram that is always false. -/
def falseRef : Nat := 0

/-- The diagram that is always true. -/
def trueRef : Nat := 1

/-- A decision: the diagram `high` when the variable is true, and `low` when it is false. -/
structure Node where
  var : Nat
  low : Nat
  high : Nat
  deriving DecidableEq, Hashable, Inhabited

/-- A connective of two diagrams. -/
inductive Connective where
  | and
  | or
  deriving DecidableEq, Hashable

/-- The truth value that a connective gives to two. -/
def Connective.eval : Connective → Bool → Bool → Bool
  | and, a, b => a && b
  | or, a, b => a || b

/-- What a connective gives when one operand settles it or the operands are equal. -/
def Connective.shortcut? (c : Connective) (a b : Nat) : Option Nat :=
  match c with
  | and =>
    if a = falseRef ∨ b = falseRef then some falseRef
    else if a = trueRef then some b
    else if b = trueRef then some a
    else if a = b then some a
    else none
  | or =>
    if a = trueRef ∨ b = trueRef then some trueRef
    else if a = falseRef then some b
    else if b = falseRef then some a
    else if a = b then some a
    else none

/-- The decisions made so far, the number of each, and the results of earlier operations. -/
structure Store where
  nodes : Array Node
  unique : Std.HashMap Node Nat
  negated : Std.HashMap Nat Nat
  combined : Std.HashMap (Connective × Nat × Nat) Nat

namespace Store

/-- The store without decisions. -/
def empty : Store := ⟨#[], ∅, ∅, ∅⟩

/-- The number of nodes, false and true included. -/
def size (s : Store) : Nat := s.nodes.size + 2

/-- Whether no decision has been made. -/
def isEmpty (s : Store) : Bool := s.nodes.isEmpty

/-- The decision that a reference stands for, unless it is false or true. -/
def node? (s : Store) (f : Nat) : Option Node := if f < 2 then none else s.nodes[f - 2]?

/-- The diagram of a decision: one of its parts when they are equal, the node that makes it when there
is one, and a new node otherwise. -/
def make (n : Node) : StateM Store Nat := fun s =>
  if n.low = n.high then (n.low, s)
  else
    match s.unique[n]? with
    | some f => (f, s)
    | none => (s.size, { s with nodes := s.nodes.push n, unique := s.unique.insert n s.size })

/-- The diagram of a variable. -/
def ofVar (v : Nat) : StateM Store Nat := make ⟨v, falseRef, trueRef⟩

/-- The diagram of a negation. The bound is on the depth of the diagram, which is less than the
reference. -/
def negateWithin : Nat → Nat → StateM Store Nat
  | 0, _ => pure falseRef
  | fuel + 1, f => do
    if f = falseRef then return trueRef
    if f = trueRef then return falseRef
    let s ← get
    if let some r := s.negated[f]? then return r
    let n := s.node? f |>.getD default
    let low ← negateWithin fuel n.low
    let high ← negateWithin fuel n.high
    let r ← make ⟨n.var, low, high⟩
    modify fun s => { s with negated := s.negated.insert f r }
    return r

/-- The diagram of a negation. -/
def negate (f : Nat) : StateM Store Nat := negateWithin (f + 1) f

/-- The diagrams that a diagram becomes when a variable is false and when it is true, if no smaller
variable occurs in it. -/
def cofactors (f : Nat) (n : Node) (v : Nat) : Nat × Nat :=
  if n.var = v then (n.low, n.high) else (f, f)

/-- The diagram of a connective. The bound is on the depths of both diagrams together, which are less
than the references. -/
def combineWithin (c : Connective) : Nat → Nat → Nat → StateM Store Nat
  | 0, _, _ => pure falseRef
  | fuel + 1, f, g => do
    if let some r := c.shortcut? f g then return r
    let s ← get
    let key := (c, min f g, max f g)
    if let some r := s.combined[key]? then return r
    let m := s.node? f |>.getD default
    let n := s.node? g |>.getD default
    let v := min m.var n.var
    let low ← combineWithin c fuel (cofactors f m v).1 (cofactors g n v).1
    let high ← combineWithin c fuel (cofactors f m v).2 (cofactors g n v).2
    let r ← make ⟨v, low, high⟩
    modify fun s => { s with combined := s.combined.insert key r }
    return r

/-- The diagram of a connective. -/
def combine (c : Connective) (f g : Nat) : StateM Store Nat := combineWithin c (f + g + 1) f g

/-- The diagram of a conjunction. -/
def conjoin (f g : Nat) : StateM Store Nat := combine .and f g

/-- The diagram of a disjunction. -/
def disjoin (f g : Nat) : StateM Store Nat := combine .or f g

end Store

end Diagram

end TimedInference
