import TimedInference.Log.Event

/-!
# Computations with a log

A computation that succeeds or fails and keeps a log in either case. Its outcome does not depend on
its log: taking the outcome commutes with every operation (`Logged.outcome_bind` and its companions),
so statements about outcomes are statements about computations without a log.
-/

namespace TimedInference

/-- The outcome of a computation, and what it reported up to its end. -/
structure Logged (ε α : Type) where
  outcome : Except ε α
  log : List LogEvent

namespace Logged

variable {ε δ α β : Type}

/-- Succeeds without a report. -/
protected def pure (a : α) : Logged ε α := ⟨.ok a, []⟩

/-- Carries on with the value of a computation, if it succeeds. -/
protected def bind (x : Logged ε α) (f : α → Logged ε β) : Logged ε β :=
  match x.outcome with
  | .ok a => ⟨(f a).outcome, x.log ++ (f a).log⟩
  | .error e => ⟨.error e, x.log⟩

instance : Monad (Logged ε) where
  pure := Logged.pure
  bind := Logged.bind

/-- A computation that reports nothing. -/
def ofExcept (x : Except ε α) : Logged ε α := ⟨x, []⟩

instance : MonadLift (Except ε) (Logged ε) := ⟨ofExcept⟩

/-- Reports an event. -/
def report (e : LogEvent) : Logged ε Unit := ⟨.ok (), [e]⟩

/-- Reports events, in order. -/
def reports (es : List LogEvent) : Logged ε Unit := ⟨.ok (), es⟩

/-- The computation with its error mapped. -/
def mapError (f : ε → δ) (x : Logged ε α) : Logged δ α := ⟨x.outcome.mapError f, x.log⟩

@[simp] theorem outcome_pure (a : α) : (pure a : Logged ε α).outcome = .ok a := rfl

/-- Reports do not change what a sequence of computations gives. -/
@[simp] theorem outcome_bind (x : Logged ε α) (f : α → Logged ε β) :
    (x >>= f).outcome = x.outcome >>= fun a => (f a).outcome := by
  change (Logged.bind x f).outcome = _
  unfold Logged.bind
  split <;> simp_all [bind, Except.bind]

@[simp] theorem outcome_ofExcept (x : Except ε α) : (ofExcept x).outcome = x := rfl

@[simp] theorem outcome_report (e : LogEvent) : (report e : Logged ε Unit).outcome = .ok () := rfl

@[simp] theorem outcome_reports (es : List LogEvent) :
    (reports es : Logged ε Unit).outcome = .ok () := rfl

@[simp] theorem outcome_mapError (f : ε → δ) (x : Logged ε α) :
    (x.mapError f).outcome = x.outcome.mapError f := rfl

theorem outcome_mapM_loop (f : α → Logged ε β) (as : List α) (bs : List β) :
    (List.mapM.loop f as bs).outcome = List.mapM.loop (fun a => (f a).outcome) as bs := by
  induction as generalizing bs with
  | nil => rfl
  | cons a as ih =>
    rw [List.mapM.loop, outcome_bind]
    exact congrArg _ (funext fun b => ih (b :: bs))

/-- The outcome of a computation for each member of a list is that of the computations without
reports. -/
@[simp] theorem outcome_mapM (f : α → Logged ε β) (as : List α) :
    (as.mapM f).outcome = as.mapM fun a => (f a).outcome := outcome_mapM_loop f as []

end Logged

end TimedInference
