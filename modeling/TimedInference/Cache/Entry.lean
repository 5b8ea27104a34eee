import TimedInference.Cache.Binding
import TimedInference.Cache.Rebase
import TimedInference.Digest.Blake3
import TimedInference.Engine.Basic
import TimedInference.Template.Query

/-!
# Entries

An entry is one family of queries, compiled once: the program, extended by the declared facts with
probability zero and by the query at its own time, the base of the entry. Events in the frame of the
entry set the weights of the declared facts.
-/

namespace TimedInference

/-- A compiled family of queries. -/
structure Entry (α : Type) where
  identifier : String
  /-- The time at which the family was compiled. -/
  base : Int
  circuit : Circuit α
  tracked : List TrackedFact
  /-- The texts of declared facts without a node. -/
  unbound : List String
  /-- The digest of the compiled text. -/
  digest : String

namespace Entry

variable {α : Type} [Probability α]

/-- The text that is compiled for a query: the program, the declared facts with probability zero, and
the query, each on a line. -/
def programText (program : String) (declarations : List (Event α)) (query : Query) : String :=
  String.join ((program :: declarations.map Event.mock ++ [query.text]).map (· ++ "\n"))

/-- Compiles the family of a query at the query's time. -/
def compile (engine : Engine α) (warnUnbound : Bool) (program : String)
    (declarations : List (Event α)) (query : Query) : Logged CacheError (Entry α) := do
  Logged.report (.entryOpened query.identifier query.time)
  let text := programText program declarations query
  let circuit ← (engine.compile text).mapError .engine
  let binding := Binding.ofDeclarations declarations circuit.named
  if warnUnbound then
    Logged.reports (binding.unbound.map (.factUnbound query.identifier))
  Logged.report
    (.entryCompiled query.identifier query.time binding.tracked.length circuit.size)
  return {
    identifier := query.identifier
    base := query.time
    circuit
    tracked := binding.tracked
    unbound := binding.unbound
    digest := Blake3.hex text }

/-- The circuit's weights with those of the tracked facts set to the probabilities of their events,
or to zero without an event. -/
def assign (e : Entry α) (rebased : Rebased α) : Except EngineError (Weights α) :=
  e.tracked.foldlM (fun w fact => w.set fact.node (rebased.getD fact.key 0)) e.circuit.baseline

/-- The number of tracked facts that have an event. -/
def matched (e : Entry α) (rebased : Rebased α) : Nat :=
  e.tracked.countP fun fact => rebased.contains fact.key

end Entry

end TimedInference
