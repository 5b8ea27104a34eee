import TimedInference.Engine.Error
import TimedInference.Template.Error
import TimedInference.Time

/-!
# Errors of caches

Why a cache cannot be built, or cannot answer.
-/

namespace TimedInference

/-- An error of a cache. -/
inductive CacheError where
  /-- The family of a query was not compiled. -/
  | notPrecompiled (identifier : String)
  /-- Feedback was asked for, but the query has none. -/
  | feedbackUnsupported (identifier : String)
  /-- A timestamp could not be moved. -/
  | overflow (overflow : Time.Overflow)
  /-- The program could not be read from where it is kept. -/
  | programUnreadable (path reason : String)
  /-- An error of inference. -/
  | engine (error : EngineError)
  /-- An error of a template. -/
  | template (error : TemplateError)
  deriving DecidableEq

/-- The message of an error. -/
def CacheError.message : CacheError → String
  | notPrecompiled identifier => "query '" ++ identifier ++ "' has not been precompiled"
  | feedbackUnsupported identifier =>
    "feedback requested but query '" ++ identifier ++ "' has no feedback capability"
  | overflow o => o.message
  | programUnreadable path reason => "failed to load program from " ++ path ++ ": " ++ reason
  | engine e => "engine error: " ++ e.message
  | template e => "template error: " ++ e.message

end TimedInference
