import TimedInference.Cache.Error
import TimedInference.Circuit.Basic
import TimedInference.Template.Event

/-!
# Feedback

Feedback turns the results of a query into events for the queries after it: a result at some time
becomes an event of a target family, a fixed offset later and with the same probability.
-/

namespace TimedInference

/-- How results become events. -/
structure Feedback where
  target : FactTemplate
  offset : Int
  /-- The position of a result's time among its arguments. -/
  timePosition : Nat
  deriving DecidableEq

namespace Feedback

variable {α : Type} [Probability α]

/-- The event of one result, whose time is moved by a shift and then by the offset. A result without
an integer at the position of its time gives none. -/
def event? (f : Feedback) (shift : Int) (result : Term × α) :
    Except CacheError (Option (Event α)) :=
  match result.1.intArg? f.timePosition with
  | none => .ok none
  | some time => do
    let shifted ← (Time.move time shift).mapError .overflow
    let moved ← (Time.move shifted f.offset).mapError .overflow
    let event ← (Event.ofProbability f.target moved result.2).mapError .template
    return some event

/-- The events of the results of a query, whose times are moved by the query's shift. -/
def derive (f : Feedback) (raw : Evaluation α) (shift : Int) : Except CacheError (List (Event α)) := do
  return (← raw.toList.mapM (f.event? shift)).filterMap id

end Feedback

end TimedInference
