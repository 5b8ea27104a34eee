import TimedInference.Proofs.Cache.Batches
import TimedInference.Proofs.Cache.Building
import TimedInference.Proofs.Cache.Shift
import TimedInference.Proofs.Cache.Tracked
import TimedInference.Proofs.Circuit.Values

/-!
# The errors of a call

A call checks its queries before it evaluates anything.  The first query without an entry, or without the
feedback that is asked for, decides the error (`Cache.evaluate_eq_error`).

After these checks the only error left is a time that does not fit (`FailsByOverflow`).  Events set the
weights of nodes that the circuit has, to probabilities, so the circuit can be evaluated
(`Entry.Compiled.exists_evaluate`).  With exact numbers its values are probabilities again, so feedback makes
events of them (`Feedback.failsByOverflow_derive`), and the same holds for the queries after it.
-/

namespace TimedInference

variable {β γ : Type}

/-! ## Failing by an overflow -/

/-- A computation that fails only because a time does not fit. -/
def FailsByOverflow (x : Except CacheError β) : Prop := ∀ e, x = .error e → ∃ o, e = .overflow o

namespace FailsByOverflow

theorem of_ok {x : Except CacheError β} {b : β} (h : x = .ok b) : FailsByOverflow x := by
  rintro e rfl
  cases h

theorem of_mapError (x : Except Time.Overflow β) :
    FailsByOverflow (x.mapError CacheError.overflow) := by
  intro e he
  cases x with
  | error o => exact ⟨o, (Except.error.inj he).symm⟩
  | ok b => cases he

/-- A sequence fails only by overflow when its parts do. -/
theorem bind {x : Except CacheError β} {f : β → Except CacheError γ} (hx : FailsByOverflow x)
    (hf : ∀ b, x = .ok b → FailsByOverflow (f b)) : FailsByOverflow (x >>= f) := by
  cases x with
  | error e =>
    intro e' he'
    exact hx e' (congrArg Except.error (Except.error.inj he'))
  | ok b => exact hf b rfl

theorem map {x : Except CacheError β} (hx : FailsByOverflow x) (f : β → γ) :
    FailsByOverflow (x.map f) := by
  cases x with
  | error e =>
    intro e' he'
    exact hx e' (congrArg Except.error (Except.error.inj he'))
  | ok b => exact of_ok rfl

/-- A computation for each member of a list fails only by overflow when each of them does. -/
theorem mapM {f : β → Except CacheError γ} {bs : List β} (h : ∀ b ∈ bs, FailsByOverflow (f b)) :
    FailsByOverflow (bs.mapM f) := by
  induction bs with
  | nil => exact of_ok rfl
  | cons b bs ih =>
    rw [List.forall_mem_cons] at h
    rw [List.mapM_cons]
    exact h.1.bind fun c _ => (ih h.2).bind fun cs _ => of_ok rfl

/-- What fails only by overflow succeeds, or a time does not fit. -/
theorem ok_or_overflow {x : Except CacheError β} (h : FailsByOverflow x) :
    (∃ b, x = .ok b) ∨ ∃ o, x = .error (.overflow o) := by
  cases x with
  | error e =>
    obtain ⟨o, rfl⟩ := h e rfl
    exact .inr ⟨o, rfl⟩
  | ok b => exact .inl ⟨b, rfl⟩

end FailsByOverflow

/-! ## Evaluating an entry -/

namespace Entry

/-- An entry that an engine of this library has compiled. -/
def Compiled {α : Type} [Probability α] (e : Entry α) : Prop :=
  ∃ (kind : EngineKind) (maxChoices atomLimit : Nat) (warnUnbound : Bool) (program : String)
    (declarations : List (Event α)) (query : Query),
    (compile (.ofKind kind maxChoices atomLimit) warnUnbound program declarations query).outcome =
      .ok e

section

variable {α : Type} [Probability α] {e : Entry α} (h : e.Compiled)
include h

/-- Events set the weights of a compiled entry, as they are probabilities. -/
theorem Compiled.exists_assign (events : List (Event α)) (shift : Int) :
    ∃ w, e.assign (Event.rebase events shift) = .ok w := by
  obtain ⟨kind, maxChoices, atomLimit, warnUnbound, program, declarations, query, hcompile⟩ := h
  exact exists_assign_rebase hcompile events shift

/-- The circuit of an entry accepts the weights that events set. -/
theorem Compiled.exists_evaluate {events : List (Event α)} {shift : Int} {w : Weights α}
    (hw : e.assign (Event.rebase events shift) = .ok w) : ∃ r, e.circuit.evaluate w = .ok r := by
  obtain ⟨kind, maxChoices, atomLimit, warnUnbound, program, declarations, query, hcompile⟩ := h
  obtain ⟨p, g, c, hp, hg, hc, rfl⟩ := compile_eq_ok_iff.1 hcompile
  have hcircuit := Engine.isCircuitOf_values hc
  have hbaseline := (Program.readable_of_ofText hp).check_baseline hg
  rw [← hcircuit.baseline_eq] at hbaseline
  -- setting weights leaves their number, and they stay probabilities
  rw [assign_eq_setAll] at hw
  have hcheck := Weights.check_of_setAll hw hbaseline
  exact ⟨_, hcircuit.answers.evaluate_eq_ok_iff.2 ⟨hcheck, rfl⟩⟩

end

/-- With exact numbers the values of an entry are probabilities. -/
theorem Compiled.inUnit_of_evaluate {e : Entry ℚ} (h : e.Compiled) {w : Weights ℚ}
    {r : Evaluation ℚ} (hr : e.circuit.evaluate w = .ok r) :
    ∀ s ∈ r.toList, Probability.inUnit s.2 = true := by
  obtain ⟨kind, maxChoices, atomLimit, warnUnbound, program, declarations, query, hcompile⟩ := h
  obtain ⟨p, g, c, -, -, hc, rfl⟩ := compile_eq_ok_iff.1 hcompile
  intro s hs
  exact Engine.inUnit_of_evaluate hc hr (Std.ExtTreeMap.mem_toList_iff_getElem?_eq_some.1 hs)

end Entry

/-! ## Feedback of probabilities -/

namespace Feedback

variable {α : Type} [Probability α]

/-- A result that is a probability becomes an event when its times fit. -/
theorem failsByOverflow_event? (f : Feedback) (shift : Int) {result : Term × α}
    (h : Probability.inUnit result.2 = true) : FailsByOverflow (f.event? shift result) := by
  unfold event?
  cases result.1.intArg? f.timePosition with
  | none => exact .of_ok rfl
  | some time =>
    refine (FailsByOverflow.of_mapError _).bind fun shifted _ => ?_
    refine (FailsByOverflow.of_mapError _).bind fun moved _ => ?_
    rw [Event.ofProbability, dif_pos h]
    exact .of_ok rfl

/-- Results that are probabilities become events, unless a time does not fit. -/
theorem failsByOverflow_derive (f : Feedback) {raw : Evaluation α} (shift : Int)
    (h : ∀ s ∈ raw.toList, Probability.inUnit s.2 = true) : FailsByOverflow (f.derive raw shift) := by
  unfold derive
  refine FailsByOverflow.bind (.mapM fun s hs => ?_) fun events _ => .of_ok rfl
  exact f.failsByOverflow_event? shift (h s hs)

end Feedback

/-! ## Answering -/

section

variable {p : Planned ℚ} (h : p.entry.Compiled) (events : List (Event ℚ)) (shift : Int)
include h

/-- With a compiled entry, results are missing only when a time does not fit. -/
theorem Cache.failsByOverflow_results : FailsByOverflow (results p events shift).outcome := by
  rw [outcome_results]
  obtain ⟨w, hw⟩ := h.exists_assign events shift
  refine FailsByOverflow.bind (.of_ok (mapError_eq_ok.2 hw)) fun w hw => ?_
  obtain ⟨r, hr⟩ := h.exists_evaluate (mapError_eq_ok.1 hw)
  refine FailsByOverflow.bind (.of_ok (mapError_eq_ok.2 hr)) fun raw _ => ?_
  refine FailsByOverflow.bind (.mapM fun s _ => ?_) fun moved _ => .of_ok rfl
  exact (FailsByOverflow.of_mapError _).map _

/-- The results of a compiled entry are probabilities, so events are derived from them when times
fit. -/
theorem Cache.failsByOverflow_derived {raw : Evaluation ℚ} {moved : List (Term × ℚ)}
    (hresults : (results p events shift).outcome = .ok (raw, moved)) :
    FailsByOverflow (derived p raw shift).outcome := by
  rw [outcome_results] at hresults
  simp only [bind_eq_ok, mapError_eq_ok] at hresults
  obtain ⟨w, -, raw', hr, moved', -, hpair⟩ := hresults
  obtain ⟨rfl, -⟩ := Prod.mk.inj (Except.ok.inj hpair)
  unfold derived
  cases p.feedback with
  | none => exact .of_ok rfl
  | some f =>
    rw [Logged.outcome_bind]
    have hderive := f.failsByOverflow_derive shift (h.inUnit_of_evaluate hr)
    exact hderive.bind fun events _ => .of_ok rfl

/-- A compiled entry answers a query, unless a time does not fit. -/
theorem Planned.failsByOverflow_answer : FailsByOverflow (p.answer events) := by
  unfold answer
  refine (FailsByOverflow.of_mapError _).bind fun shift _ => ?_
  refine (Cache.failsByOverflow_results h events shift).bind fun found hfound => ?_
  exact (Cache.failsByOverflow_derived h events shift hfound).bind fun derived _ => .of_ok rfl

end

namespace Cache

/-- Compiled entries answer every batch, unless a time does not fit. -/
theorem failsByOverflow_batch {planned : List (Planned ℚ)} (h : ∀ p ∈ planned, p.entry.Compiled)
    (events : List (Event ℚ)) : FailsByOverflow (batch planned events) := by
  -- the events of the batch grow by what each query derives
  induction planned generalizing events with
  | nil => exact .of_ok rfl
  | cons p ps ih =>
    rw [List.forall_mem_cons] at h
    rw [batch]
    refine (Planned.failsByOverflow_answer h.1 events).bind fun first _ => ?_
    exact (ih h.2 _).bind fun others _ => .of_ok rfl

/-! ## Checking queries -/

section

variable {α : Type}

/-- Whether a query has an entry and, when feedback is asked for, a feedback. -/
def Supports (c : Cache α) (feedback : Bool) (q : Query) : Prop :=
  c.entries[q.identifier]?.isSome ∧ (feedback = true → q.template.feedback.isSome)

variable {c : Cache α} {feedback : Bool}

/-- A query can be planned when it is supported. -/
theorem exists_plan_iff {q : Query} : (∃ p, c.plan feedback q = .ok p) ↔ c.Supports feedback q := by
  unfold plan Supports
  cases c.entries[q.identifier]? with
  | none => simp
  | some e =>
    cases feedback with
    | false => simp
    | true => cases q.template.feedback <;> simp

variable [Probability α] {before after : List Query} {q : Query}
  (hbefore : ∀ a ∈ before, c.Supports feedback a) (events : List (Event α))
include hbefore

/-- The first query that cannot be planned decides the error of a call. -/
theorem evaluate_eq_error {e : CacheError} (hq : c.plan feedback q = .error e) :
    (c.evaluate (before ++ q :: after) events feedback).outcome = .error e := by
  rw [outcome_evaluate_eq_merged, answers,
    mapM_eq_error (fun a ha => exists_plan_iff.2 (hbefore a ha)) hq]
  rfl

/-- A query without an entry is refused, whether or not it has a feedback. -/
theorem evaluate_eq_notPrecompiled (hq : c.entries[q.identifier]? = none) :
    (c.evaluate (before ++ q :: after) events feedback).outcome =
      .error (.notPrecompiled q.identifier) := by
  apply evaluate_eq_error hbefore
  rw [plan, hq]

/-- A query with an entry is refused if it lacks the feedback that is asked for. -/
theorem evaluate_eq_feedbackUnsupported (hq : c.entries[q.identifier]? ≠ none)
    (hasked : feedback = true) (hf : q.template.feedback = none) :
    (c.evaluate (before ++ q :: after) events feedback).outcome =
      .error (.feedbackUnsupported q.identifier) := by
  apply evaluate_eq_error hbefore
  obtain ⟨e, he⟩ := Option.ne_none_iff_exists'.1 hq
  rw [plan, he, hasked, hf]
  rfl

end

/-! ## Calls -/

/-- A cache that was built with an engine of this library fails only in documented ways.  The first query
without an entry, or without the feedback that is asked for, decides the error, where the entry is looked
for first.  When all queries are supported the call succeeds, or a time does not fit. -/
theorem evaluate_errors {kind : EngineKind} {maxChoices atomLimit : Nat} {warnUnbound : Bool}
    {declarations : List (Event ℚ)} {compiled : List Query} {program : String} {c : Cache ℚ}
    (h : (build (.ofKind kind maxChoices atomLimit) warnUnbound declarations compiled program).outcome =
      .ok c) (queries : List Query) (events : List (Event ℚ)) (feedback : Bool) :
    (∀ before q after, queries = before ++ q :: after → (∀ a ∈ before, c.Supports feedback a) →
      (c.entries[q.identifier]? = none →
        (c.evaluate queries events feedback).outcome = .error (.notPrecompiled q.identifier)) ∧
      (c.entries[q.identifier]? ≠ none → feedback = true → q.template.feedback = none →
        (c.evaluate queries events feedback).outcome =
          .error (.feedbackUnsupported q.identifier))) ∧
    ((∀ q ∈ queries, c.Supports feedback q) →
      (∃ r, (c.evaluate queries events feedback).outcome = .ok r) ∨
        ∃ o, (c.evaluate queries events feedback).outcome = .error (.overflow o)) := by
  constructor
  · rintro before q after rfl hbefore
    exact ⟨evaluate_eq_notPrecompiled hbefore events, evaluate_eq_feedbackUnsupported hbefore events⟩
  · intro hall
    apply FailsByOverflow.ok_or_overflow
    rw [outcome_evaluate_eq_merged, answers]
    refine FailsByOverflow.map (.bind (.mapM fun q hq => ?_) fun planned hplanned => ?_) _
    · obtain ⟨p, hp⟩ := exists_plan_iff.2 (hall q hq)
      exact .of_ok hp
    · refine failsByOverflow_batch (fun p hp => ?_) events
      obtain ⟨q, -, hq⟩ := exists_of_mem_mapM hplanned hp
      obtain ⟨-, hentry, -⟩ := plan_eq_ok_iff.1 hq
      obtain ⟨q', -, hcompile⟩ := (getElem?_entries_eq_some_iff h).1 hentry
      exact ⟨_, _, _, _, _, _, _, hcompile⟩

/-- Both rounds are supported, so only a time could fail.  A query of their family that has no feedback is
refused after them. -/
theorem evaluate_errors_rounds :
    ∃ c : Cache ℚ, (build (.ofKind .worlds 20 100) true headsAtThree [⟨winAgain, 3⟩]
        "win(T) :- heads(T).").outcome = .ok c ∧
      ((∃ r, (c.evaluate rounds fairCoin true).outcome = .ok r) ∨
        ∃ o, (c.evaluate rounds fairCoin true).outcome = .error (.overflow o)) ∧
      (c.evaluate (rounds ++ [⟨win, 5⟩]) fairCoin true).outcome =
        .error (.feedbackUnsupported "win") := by
  have hbuilt : ((build (.ofKind .worlds 20 100) true headsAtThree [⟨winAgain, 3⟩]
      "win(T) :- heads(T).").outcome.toOption.map fun c : Cache ℚ =>
        c.entries["win"]?.isSome) = some true := by decide +kernel
  obtain ⟨c, hc, hentry⟩ := Option.map_eq_some_iff.1 hbuilt
  have hrounds : ∀ q ∈ rounds, q.identifier = "win" ∧ q.template.feedback.isSome := by decide
  have hsupports : ∀ q ∈ rounds, c.Supports true q := by
    intro q hq
    rw [Supports, (hrounds q hq).1]
    exact ⟨hentry, fun _ => (hrounds q hq).2⟩
  have herrors := evaluate_errors (eq_ok_of_toOption hc)
  refine ⟨c, eq_ok_of_toOption hc, (herrors rounds fairCoin true).2 hsupports, ?_⟩
  have hrefused := (herrors (rounds ++ [⟨win, 5⟩]) fairCoin true).1 rounds ⟨win, 5⟩ [] rfl hsupports
  have hwin : (⟨win, 5⟩ : Query).identifier = "win" := by decide
  rw [hwin] at hrefused
  exact hrefused.2 (Option.isSome_iff_ne_none.1 hentry) rfl rfl

end Cache

end TimedInference
