/-!
# Log events

What is reported while programs are compiled and caches answer. An event is one of the things that
happen; its record is what a log shows of it: a level, the name of the span when the event opens one,
and named values.
-/

namespace TimedInference

/-- How much an event matters. -/
inductive LogLevel where
  | debug
  | info
  | warn
  deriving DecidableEq

/-- A value of a record. -/
inductive LogValue where
  | int (value : Int)
  | bool (value : Bool)
  | text (value : String)
  deriving DecidableEq

/-- What a log shows of an event. -/
structure LogRecord where
  level : LogLevel
  span : Option String
  fields : List (String × LogValue)
  deriving DecidableEq

/-- Something that is reported. -/
inductive LogEvent where
  /-- A program was grounded. -/
  | grounded (possible relevant choices : Nat)
  /-- A program was compiled to a diagram. -/
  | diagramCompiled (engine : String) (nodes choices : Nat)
  /-- A program was compiled for the enumeration of worlds. -/
  | worldsCompiled (engine : String) (atoms : Nat)
  /-- The compilation of a family of queries begins. -/
  | entryOpened (identifier : String) (base : Int)
  /-- A declared fact has no node in the compiled circuit. -/
  | factUnbound (identifier fact : String)
  /-- A family of queries was compiled. -/
  | entryCompiled (identifier : String) (base : Int) (tracked size : Nat)
  /-- A query was left out because an earlier one is of the same family. -/
  | querySkipped (identifier : String) (time : Int)
  /-- A cache was built. -/
  | cacheBuilt (engine : String) (entries facts : Nat)
  /-- The evaluation of a batch begins. -/
  | evaluationOpened (queries events : Nat)
  /-- An event was left out because its time in the frame of the entry does not fit. -/
  | eventOutOfFrame (identifier : String) (time shift : Int)
  /-- A query was evaluated. -/
  | queryEvaluated (identifier : String) (shift : Int) (matched results : Nat)
  /-- Events derived from the results of a query were appended. -/
  | feedbackAppended (identifier : String) (count : Nat)
  /-- A batch was evaluated. -/
  | evaluationCompleted (queries results : Nat) (feedback : Bool)
  deriving DecidableEq

namespace LogEvent

/-- The record of a message. -/
private def message (level : LogLevel) (text : String) (fields : List (String × LogValue)) :
    LogRecord :=
  ⟨level, none, ("message", .text text) :: fields⟩

/-- The record of a message about a named event. -/
private def milestone (level : LogLevel) (name text : String)
    (fields : List (String × LogValue)) : LogRecord :=
  message level text (("event", .text name) :: fields)

/-- What a log shows of an event. -/
def record : LogEvent → LogRecord
  | grounded possible relevant choices =>
    message .debug "grounding complete"
      [("possible", .int possible), ("relevant", .int relevant), ("choices", .int choices)]
  | diagramCompiled engine nodes choices =>
    message .debug "program compiled"
      [("engine", .text engine), ("nodes", .int nodes), ("facts", .int choices)]
  | worldsCompiled engine atoms =>
    message .debug "program compiled" [("engine", .text engine), ("atoms", .int atoms)]
  | entryOpened identifier base =>
    ⟨.info, some "chronolog.compile",
      [("identifier", .text identifier), ("base_timestamp", .int base)]⟩
  | factUnbound identifier fact =>
    milestone .warn "fact_unbound" "fact not bound to any circuit node"
      [("identifier", .text identifier), ("fact", .text fact)]
  | entryCompiled identifier base tracked size =>
    milestone .info "entry_compiled" "entry compiled"
      [("identifier", .text identifier), ("base_timestamp", .int base), ("tracked", .int tracked),
        ("circuit_size", .int size)]
  | querySkipped identifier time =>
    milestone .warn "query_skipped" "duplicate query identifier skipped"
      [("identifier", .text identifier), ("timestamp", .int time)]
  | cacheBuilt engine entries facts =>
    message .info "precompilation cache built"
      [("engine", .text engine), ("entries", .int entries), ("facts", .int facts)]
  | evaluationOpened queries events =>
    ⟨.info, some "chronolog.evaluate", [("queries", .int queries), ("events", .int events)]⟩
  | eventOutOfFrame identifier time shift =>
    message .debug "event outside the compiled frame"
      [("identifier", .text identifier), ("timestamp", .int time), ("shift", .int shift)]
  | queryEvaluated identifier shift matched results =>
    milestone .debug "query_evaluated" "query evaluated"
      [("identifier", .text identifier), ("shift", .int shift), ("matched", .int matched),
        ("results", .int results)]
  | feedbackAppended identifier count =>
    milestone .debug "feedback_appended" "feedback events appended"
      [("identifier", .text identifier), ("count", .int count)]
  | evaluationCompleted queries results feedback =>
    milestone .info "evaluation_completed" "evaluation completed"
      [("queries", .int queries), ("results", .int results), ("feedback", .bool feedback)]

end LogEvent

end TimedInference
