import TimedInference.Cache.Entry
import TimedInference.Config.Basic
import TimedInference.Text.File

/-!
# Caches

A cache holds one entry for each family of queries. It answers a query of a family at any time without
compiling again: events are moved back by the time between the entry's base and the query, the weights
are set, and the results are moved forward.
-/

namespace TimedInference

/-- Compiled families of queries by name. -/
structure Cache (α : Type) where
  entries : Std.ExtTreeMap String (Entry α)

/-- The queries of which no earlier one is of the same family, and the others, each in order. The
first argument names the families met before. -/
def Query.splitRepeats : List String → List Query → List Query × List Query
  | _, [] => ([], [])
  | met, q :: qs =>
    if met.contains q.identifier then
      let (first, again) := splitRepeats met qs
      (first, q :: again)
    else
      let (first, again) := splitRepeats (q.identifier :: met) qs
      (q :: first, again)

/-- A query with what is needed to answer it. -/
structure Planned (α : Type) where
  query : Query
  entry : Entry α
  feedback : Option Feedback

namespace Cache

variable {α : Type} [Probability α]

/-! ## Building -/

/-- Compiles the family of each query, at the time of the first query of the family. -/
def build (engine : Engine α) (warnUnbound : Bool) (facts : List (Event α)) (queries : List Query)
    (program : String) : Logged CacheError (Cache α) := do
  let (first, again) := Query.splitRepeats [] queries
  Logged.reports (again.map fun q => .querySkipped q.identifier q.time)
  let entries ← first.mapM (Entry.compile engine warnUnbound program facts)
  let cache : Cache α := ⟨Std.ExtTreeMap.ofList (entries.map fun e => (e.identifier, e))⟩
  Logged.report (.cacheBuilt engine.name cache.entries.size facts.length)
  return cache

/-- Compiles families with the engine that settings ask for. -/
def ofConfig (config : Config) (facts : List (Event α)) (queries : List Query) (program : String) :
    Logged CacheError (Cache α) :=
  build config.engine config.warnUnbound facts queries program

/-- Compiles families over a program that is kept as bytes at a path. -/
def ofFile (config : Config) (facts : List (Event α)) (queries : List Query) (path : String)
    (content : Option ByteArray) : Logged CacheError (Cache α) := do
  let program ← Logged.ofExcept ((Text.ofFile content).mapError (.programUnreadable path))
  ofConfig config facts queries program

/-- The texts that are compiled for the families of some queries. -/
def programTexts (facts : List (Event α)) (queries : List Query) (program : String) : List String :=
  (Query.splitRepeats [] queries).1.map (Entry.programText program facts)

/-! ## Answering -/

/-- What is needed to answer a query: the entry of its family and, when it is asked for, its
feedback. -/
def plan (c : Cache α) (feedback : Bool) (q : Query) : Except CacheError (Planned α) :=
  match c.entries[q.identifier]? with
  | none => .error (.notPrecompiled q.identifier)
  | some entry =>
    if feedback then
      match q.template.feedback with
      | none => .error (.feedbackUnsupported q.identifier)
      | some f => .ok ⟨q, entry, some f⟩
    else .ok ⟨q, entry, none⟩

/-- The reports of events that are left out in the frame of a shift. -/
def frameLog (events : List (Event α)) (shift : Int) : List LogEvent :=
  (Event.outOfFrame events shift).map fun e => .eventOutOfFrame e.identifier e.time shift

/-- The results of a query over events: by atoms at the base of its entry, and by atoms at the time
of the query. -/
def results (p : Planned α) (events : List (Event α)) (shift : Int) :
    Logged CacheError (Evaluation α × List (Term × α)) := do
  Logged.reports (frameLog events shift)
  let rebased := Event.rebase events shift
  let weights ← (p.entry.assign rebased).mapError CacheError.engine
  let raw ← (p.entry.circuit.evaluate weights).mapError CacheError.engine
  let moved ← raw.toList.mapM fun r => do
    let atom ← p.query.template.translate r.1 shift
    return (atom, r.2)
  Logged.report (.queryEvaluated p.query.identifier shift (p.entry.matched rebased) raw.size)
  return (raw, moved)

/-- The events that a query's results give to the queries after it. -/
def derived (p : Planned α) (raw : Evaluation α) (shift : Int) :
    Logged CacheError (List (Event α)) :=
  match p.feedback with
  | none => return []
  | some f => do
    let events ← f.derive raw shift
    Logged.report (.feedbackAppended p.query.identifier events.length)
    return events

/-- Answers queries in order. Results of later queries replace earlier ones for the same atom, and
events derived from a query's results come after all others. -/
def answer : List (Planned α) → List (Event α) → Evaluation α → Logged CacheError (Evaluation α)
  | [], _, found => return found
  | p :: ps, events, found => do
    let shift ← (Time.shiftFrom p.entry.base p.query.time).mapError CacheError.overflow
    let (raw, moved) ← results p events shift
    let more ← derived p raw shift
    answer ps (events ++ more) (found.insertMany moved)

/-- The probabilities of queries, given events. Every query must have an entry, and with feedback
every query must support it; both are checked before anything is evaluated. -/
def evaluate (c : Cache α) (queries : List Query) (events : List (Event α)) (feedback : Bool) :
    Logged CacheError (Evaluation α) := do
  Logged.report (.evaluationOpened queries.length events.length)
  let planned ← Logged.ofExcept (queries.mapM (c.plan feedback))
  let found ← answer planned events ∅
  Logged.report (.evaluationCompleted queries.length found.size feedback)
  return found

end Cache

end TimedInference
