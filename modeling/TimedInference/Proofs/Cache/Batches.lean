import TimedInference.Proofs.Cache.Outcomes
import TimedInference.Proofs.Log.Success

/-!
# Batches of queries

A cache answers the queries of a batch in order.  Each query has an answer of its own: its results at its
own time, and the events that it derives for the queries after it (`Planned.answer`).  The answers of a
batch are found over a growing list of events (`Cache.batch`), and the results of the batch are those of its
answers, of which later ones replace earlier ones (`Cache.outcome_evaluate_eq_merged`).

So a batch can be split anywhere: it is its first queries, and then the others over the events with those
that the first derived (`Cache.batch_append`, `Cache.evaluate_append`).  Without feedback nothing is derived,
and the queries of a batch are answered one at a time (`Cache.evaluate_eq_ok_iff_each`).
-/

namespace TimedInference

variable {α : Type} [Probability α]

/-! ## Answers -/

/-- What one query of a batch gives: its results at its own time, and the events that it derives. -/
structure Answer (α : Type) [Probability α] where
  results : List (Term × α)
  derived : List (Event α)

/-- The answer to a query over events. -/
def Planned.answer (p : Planned α) (events : List (Event α)) : Except CacheError (Answer α) := do
  let shift ← (Time.shiftFrom p.entry.base p.query.time).mapError CacheError.overflow
  let (raw, results) ← (Cache.results p events shift).outcome
  let derived ← (Cache.derived p raw shift).outcome
  return ⟨results, derived⟩

namespace Cache

/-- The answers to queries in order. What a query derives comes after all events before it. -/
def batch : List (Planned α) → List (Event α) → Except CacheError (List (Answer α))
  | [], _ => return []
  | p :: ps, events => do
    let first ← p.answer events
    let others ← batch ps (events ++ first.derived)
    return first :: others

/-- The queries after the first are answered over the events and what the first one derives. -/
theorem batch_cons_eq_ok_iff {p : Planned α} {ps : List (Planned α)} {events : List (Event α)}
    {answers : List (Answer α)} :
    batch (p :: ps) events = .ok answers ↔
      ∃ first others, p.answer events = .ok first ∧
        batch ps (events ++ first.derived) = .ok others ∧ first :: others = answers := by
  rw [batch]
  simp only [bind_eq_ok]
  constructor
  · rintro ⟨first, hfirst, others, hothers, hpure⟩
    exact ⟨first, others, hfirst, hothers, Except.ok.inj hpure⟩
  · rintro ⟨first, others, hfirst, hothers, rfl⟩
    exact ⟨first, hfirst, others, hothers, rfl⟩

/-- A batch is its first queries, and then the others over the events with those that the first
derived. -/
theorem batch_append (ps qs : List (Planned α)) (events : List (Event α)) :
    batch (ps ++ qs) events =
      batch ps events >>= fun first =>
        (batch qs (events ++ first.flatMap Answer.derived)).map fun others => first ++ others := by
  induction ps generalizing events with
  | nil =>
    show batch qs events = (batch qs (events ++ [])).map fun others => [] ++ others
    rw [List.append_nil]
    cases batch qs events <;> rfl
  | cons p ps ih =>
    rw [List.cons_append, batch, batch]
    cases p.answer events with
    | error e => rfl
    | ok first =>
      show (batch (ps ++ qs) (events ++ first.derived) >>= fun others => .ok (first :: others)) = _
      rw [ih]
      show _ = (batch ps (events ++ first.derived) >>= fun others => .ok (first :: others)) >>= _
      cases batch ps (events ++ first.derived) with
      | error e => rfl
      | ok others =>
        -- what the first query derived comes before what the others derived
        have hevents : events ++ (first :: others).flatMap Answer.derived =
            events ++ first.derived ++ others.flatMap Answer.derived := by
          rw [List.flatMap_cons, List.append_assoc]
        show ((batch qs _).map _ >>= _) = (batch qs _).map _
        rw [hevents]
        cases batch qs (events ++ first.derived ++ others.flatMap Answer.derived) <;> rfl

/-! ## Results -/

/-- The results of some answers, of which later ones replace earlier ones. -/
def merged (answers : List (Answer α)) : Evaluation α :=
  (∅ : Evaluation α).insertMany (answers.flatMap Answer.results)

omit [Probability α] in
/-- Results that are added to others replace them. -/
theorem insertMany_eq_union (found : Evaluation α) (results : List (Term × α)) :
    found.insertMany results = found ∪ (∅ : Evaluation α).insertMany results := by
  apply Std.ExtTreeMap.ext_getElem?
  intro atom
  rw [Std.ExtTreeMap.getElem?_union, Std.ExtTreeMap.getElem?_insertMany_list,
    Std.ExtTreeMap.getElem?_insertMany_list, Std.ExtTreeMap.getElem?_empty, Option.or_none]

/-- Answers of two batches are merged batch by batch, where the later ones win. -/
theorem merged_append (first others : List (Answer α)) :
    merged (first ++ others) = merged first ∪ merged others := by
  rw [merged, List.flatMap_append, Std.ExtTreeMap.insertMany_append, insertMany_eq_union]
  rfl

/-- Answering queries in order is answering the first, and then the others with its events and results. -/
theorem outcome_answer_cons (p : Planned α) (ps : List (Planned α)) (events : List (Event α))
    (found : Evaluation α) :
    (answer (p :: ps) events found).outcome = p.answer events >>= fun first =>
      (answer ps (events ++ first.derived) (found.insertMany first.results)).outcome := by
  rw [answer, Planned.answer]
  simp only [Logged.outcome_bind, bind_assoc, pure_bind]
  rfl

/-- A call inserts the results of its queries one after the other. -/
theorem outcome_answer (ps : List (Planned α)) (events : List (Event α)) (found : Evaluation α) :
    (answer ps events found).outcome =
      (batch ps events).map fun answers => found.insertMany (answers.flatMap Answer.results) := by
  induction ps generalizing events found with
  | nil => rfl
  | cons p ps ih =>
    rw [outcome_answer_cons, batch]
    cases p.answer events with
    | error e => rfl
    | ok first =>
      show (answer ps (events ++ first.derived) (found.insertMany first.results)).outcome =
        (batch ps (events ++ first.derived) >>= fun others => .ok (first :: others)).map _
      rw [ih]
      cases batch ps (events ++ first.derived) with
      | error e => rfl
      | ok others =>
        show Except.ok ((found.insertMany first.results).insertMany (others.flatMap Answer.results)) =
          .ok (found.insertMany (first.results ++ others.flatMap Answer.results))
        rw [Std.ExtTreeMap.insertMany_append]

/-! ## Calls -/

omit [Probability α] in
/-- What is planned for a query: its entry, and its feedback when that is asked for. -/
theorem plan_eq_ok_iff {c : Cache α} {feedback : Bool} {q : Query} {p : Planned α} :
    c.plan feedback q = .ok p ↔
      p.query = q ∧ c.entries[q.identifier]? = some p.entry ∧
        if feedback then q.template.feedback = p.feedback ∧ p.feedback.isSome else p.feedback = none := by
  obtain ⟨query, entry, f⟩ := p
  unfold plan
  cases c.entries[q.identifier]? with
  | none => simp
  | some e =>
    cases feedback with
    | false =>
      constructor
      · rintro ⟨⟩
        exact ⟨rfl, rfl, rfl⟩
      · rintro ⟨rfl, ⟨⟩, ⟨⟩⟩
        rfl
    | true =>
      cases q.template.feedback with
      | none =>
        constructor
        · rintro ⟨⟩
        · rintro ⟨-, -, ⟨⟩, hsome⟩
          simp at hsome
      | some g =>
        constructor
        · rintro ⟨⟩
          exact ⟨rfl, rfl, rfl, rfl⟩
        · rintro ⟨rfl, ⟨⟩, ⟨⟩, -⟩
          rfl

/-- The answers to the queries of a call, in order. -/
def answers (c : Cache α) (queries : List Query) (events : List (Event α)) (feedback : Bool) :
    Except CacheError (List (Answer α)) := do
  let planned ← queries.mapM (c.plan feedback)
  batch planned events

/-- The events that the queries of a call derive, in the order of the queries. -/
def derivedEvents (c : Cache α) (queries : List Query) (events : List (Event α)) (feedback : Bool) :
    Except CacheError (List (Event α)) :=
  (c.answers queries events feedback).map fun answers => answers.flatMap Answer.derived

/-- A call gives the merged results of its answers. -/
theorem outcome_evaluate_eq_merged (c : Cache α) (queries : List Query) (events : List (Event α))
    (feedback : Bool) :
    (c.evaluate queries events feedback).outcome = (c.answers queries events feedback).map merged := by
  rw [evaluate, answers]
  simp only [Logged.outcome_bind, Logged.outcome_report, Logged.outcome_ofExcept, outcome_answer]
  show (queries.mapM (c.plan feedback) >>= _) = _
  cases queries.mapM (c.plan feedback) with
  | error e => rfl
  | ok planned =>
    show ((batch planned events).map _ >>= _) = (batch planned events).map _
    cases batch planned events <;> rfl

/-- The answers to a batch are those to its first queries, and those to the others over the events with
those that the first derived. -/
theorem answers_append_eq_ok_iff {c : Cache α} {qs rs : List Query} {events : List (Event α)}
    {feedback : Bool} {all : List (Answer α)} :
    c.answers (qs ++ rs) events feedback = .ok all ↔
      ∃ first others, c.answers qs events feedback = .ok first ∧
        c.answers rs (events ++ first.flatMap Answer.derived) feedback = .ok others ∧
        first ++ others = all := by
  simp only [answers, List.mapM_append, bind_eq_ok]
  constructor
  · rintro ⟨planned, ⟨ps, hps, ps', hps', hpure⟩, hall⟩
    obtain rfl := Except.ok.inj hpure
    rw [batch_append, bind_eq_ok] at hall
    obtain ⟨first, hfirst, hmap⟩ := hall
    obtain ⟨others, hothers, rfl⟩ := map_eq_ok.1 hmap
    exact ⟨first, others, ⟨ps, hps, hfirst⟩, ⟨ps', hps', hothers⟩, rfl⟩
  · rintro ⟨first, others, ⟨ps, hps, hfirst⟩, ⟨ps', hps', hothers⟩, rfl⟩
    refine ⟨ps ++ ps', ⟨ps, hps, ps', hps', rfl⟩, ?_⟩
    rw [batch_append, bind_eq_ok]
    exact ⟨first, hfirst, map_eq_ok.2 ⟨others, hothers, rfl⟩⟩

/-- A call gives the merged answers of its batch. -/
theorem evaluate_eq_ok_iff {c : Cache α} {queries : List Query} {events : List (Event α)}
    {feedback : Bool} {r : Evaluation α} :
    (c.evaluate queries events feedback).outcome = .ok r ↔
      ∃ answers, c.answers queries events feedback = .ok answers ∧ merged answers = r := by
  rw [outcome_evaluate_eq_merged, map_eq_ok]

/-- The events that a call derives are those of its answers, in the order of the queries. -/
theorem derivedEvents_eq_ok_iff {c : Cache α} {queries : List Query} {events more : List (Event α)}
    {feedback : Bool} :
    c.derivedEvents queries events feedback = .ok more ↔
      ∃ answers, c.answers queries events feedback = .ok answers ∧
        answers.flatMap Answer.derived = more := by
  rw [derivedEvents, map_eq_ok]

/-- A call that succeeds has derived events. -/
theorem exists_derivedEvents {c : Cache α} {queries : List Query} {events : List (Event α)}
    {feedback : Bool} {r : Evaluation α} (h : (c.evaluate queries events feedback).outcome = .ok r) :
    ∃ more, c.derivedEvents queries events feedback = .ok more := by
  obtain ⟨answers, hanswers, -⟩ := evaluate_eq_ok_iff.1 h
  exact ⟨_, derivedEvents_eq_ok_iff.2 ⟨answers, hanswers, rfl⟩⟩

/-- A batch is answered exactly when its first queries are, and the others over the events with those
that the first derived; later results replace earlier ones. -/
theorem evaluate_append_eq_ok_iff {c : Cache α} {qs rs : List Query} {events : List (Event α)}
    {feedback : Bool} {r : Evaluation α} :
    (c.evaluate (qs ++ rs) events feedback).outcome = .ok r ↔
      ∃ first more others, (c.evaluate qs events feedback).outcome = .ok first ∧
        c.derivedEvents qs events feedback = .ok more ∧
        (c.evaluate rs (events ++ more) feedback).outcome = .ok others ∧ first ∪ others = r := by
  simp only [evaluate_eq_ok_iff, derivedEvents_eq_ok_iff, answers_append_eq_ok_iff]
  constructor
  · rintro ⟨_, ⟨first, others, hfirst, hothers, rfl⟩, rfl⟩
    exact ⟨_, _, _, ⟨first, hfirst, rfl⟩, ⟨first, hfirst, rfl⟩, ⟨others, hothers, rfl⟩,
      (merged_append first others).symm⟩
  · rintro ⟨_, _, _, ⟨first, hfirst, rfl⟩, ⟨first', hfirst', rfl⟩, ⟨others, hothers, rfl⟩, rfl⟩
    obtain rfl := Except.ok.inj (hfirst.symm.trans hfirst')
    exact ⟨_, ⟨first, others, hfirst, hothers, rfl⟩, merged_append first others⟩

/-! ## Without feedback -/

/-- A query without feedback derives nothing. -/
theorem derived_answer_eq_nil {p : Planned α} (hp : p.feedback = none) {events : List (Event α)}
    {a : Answer α} (h : p.answer events = .ok a) : a.derived = [] := by
  unfold Planned.answer at h
  simp only [bind_eq_ok] at h
  obtain ⟨shift, -, found, -, derived, hderived, hpure⟩ := h
  obtain rfl := Except.ok.inj hpure
  rw [Cache.derived, hp] at hderived
  exact (Except.ok.inj hderived).symm

theorem derived_batch_eq_nil {ps : List (Planned α)} (hp : ∀ p ∈ ps, p.feedback = none)
    {events : List (Event α)} {answers : List (Answer α)} (h : batch ps events = .ok answers) :
    answers.flatMap Answer.derived = [] := by
  induction ps generalizing events answers with
  | nil =>
    obtain rfl := Except.ok.inj h
    rfl
  | cons p ps ih =>
    rw [List.forall_mem_cons] at hp
    obtain ⟨first, others, hfirst, hothers, rfl⟩ := batch_cons_eq_ok_iff.1 h
    rw [List.flatMap_cons, derived_answer_eq_nil hp.1 hfirst, ih hp.2 hothers, List.append_nil]

/-- Without feedback nothing is derived. -/
theorem derivedEvents_eq_nil {c : Cache α} {queries : List Query} {events more : List (Event α)}
    (h : c.derivedEvents queries events false = .ok more) : more = [] := by
  obtain ⟨answers, hanswers, rfl⟩ := derivedEvents_eq_ok_iff.1 h
  obtain ⟨planned, hplanned, hbatch⟩ := bind_eq_ok.1 hanswers
  refine derived_batch_eq_nil (fun p hp => ?_) hbatch
  obtain ⟨q, -, hq⟩ := exists_of_mem_mapM hplanned hp
  exact (plan_eq_ok_iff.1 hq).2.2

/-- Without feedback the queries after the first are answered over the same events. -/
theorem evaluate_cons_eq_ok_iff {c : Cache α} {q : Query} {qs : List Query} {events : List (Event α)}
    {r : Evaluation α} :
    (c.evaluate (q :: qs) events false).outcome = .ok r ↔
      ∃ first others, (c.evaluate [q] events false).outcome = .ok first ∧
        (c.evaluate qs events false).outcome = .ok others ∧ first ∪ others = r := by
  rw [← List.singleton_append, evaluate_append_eq_ok_iff]
  constructor
  · rintro ⟨first, more, others, hfirst, hmore, hothers, rfl⟩
    rw [derivedEvents_eq_nil hmore, List.append_nil] at hothers
    exact ⟨first, others, hfirst, hothers, rfl⟩
  · rintro ⟨first, others, hfirst, hothers, rfl⟩
    obtain ⟨more, hmore⟩ := exists_derivedEvents hfirst
    obtain rfl := derivedEvents_eq_nil hmore
    rw [← List.append_nil events] at hothers
    exact ⟨first, [], others, hfirst, hmore, hothers, rfl⟩

omit [Probability α] in
theorem foldl_union (found : Evaluation α) (each : List (Evaluation α)) :
    each.foldl (· ∪ ·) found = found ∪ each.foldl (· ∪ ·) ∅ := by
  induction each generalizing found with
  | nil =>
    apply Std.ExtTreeMap.ext_getElem?
    intro atom
    simp [Std.ExtTreeMap.getElem?_union]
  | cons first each ih =>
    rw [List.foldl_cons, List.foldl_cons, ih, ih (∅ ∪ first)]
    apply Std.ExtTreeMap.ext_getElem?
    intro atom
    simp [Std.ExtTreeMap.getElem?_union, Option.or_assoc]

omit [Probability α] in
theorem foldl_union_cons (first : Evaluation α) (each : List (Evaluation α)) :
    (first :: each).foldl (· ∪ ·) ∅ = first ∪ each.foldl (· ∪ ·) ∅ := by
  have hempty : ∅ ∪ first = first := by
    apply Std.ExtTreeMap.ext_getElem?
    intro atom
    rw [Std.ExtTreeMap.getElem?_union, Std.ExtTreeMap.getElem?_empty, Option.or_none]
  rw [List.foldl_cons, foldl_union, hempty]

/-- Without feedback a batch gives what its queries give one at a time, merged in order. -/
theorem evaluate_eq_ok_iff_each {c : Cache α} {queries : List Query} {events : List (Event α)}
    {r : Evaluation α} :
    (c.evaluate queries events false).outcome = .ok r ↔
      ∃ each, (queries.mapM fun q => (c.evaluate [q] events false).outcome) = .ok each ∧
        each.foldl (· ∪ ·) ∅ = r := by
  induction queries generalizing r with
  | nil =>
    have hnil : (c.evaluate [] events false).outcome = .ok ∅ := rfl
    rw [hnil, List.mapM_nil]
    constructor
    · intro h
      exact ⟨[], rfl, Except.ok.inj h⟩
    · rintro ⟨each, heach, rfl⟩
      obtain rfl := Except.ok.inj heach
      rfl
  | cons q qs ih =>
    rw [evaluate_cons_eq_ok_iff, List.mapM_cons]
    simp only [ih, bind_eq_ok]
    constructor
    · rintro ⟨first, _, hfirst, ⟨each, heach, rfl⟩, rfl⟩
      exact ⟨first :: each, ⟨first, hfirst, each, heach, rfl⟩, foldl_union_cons first each⟩
    · rintro ⟨_, ⟨first, hfirst, each, heach, hpure⟩, rfl⟩
      obtain rfl := Except.ok.inj hpure
      exact ⟨first, _, hfirst, ⟨each, heach, rfl⟩, (foldl_union_cons first each).symm⟩

/-- A batch is answered part by part: its first queries, and then the others over the events with those
that the first derived.  The results of the others replace the first ones (`∪` prefers its right side). -/
theorem evaluate_append (c : Cache α) (qs rs : List Query) (events : List (Event α))
    (feedback : Bool) :
    -- a batch is answered exactly when its first queries are, and the others over what these derive
    (∀ r, (c.evaluate (qs ++ rs) events feedback).outcome = .ok r ↔
      ∃ first more others, (c.evaluate qs events feedback).outcome = .ok first ∧
        c.derivedEvents qs events feedback = .ok more ∧
        (c.evaluate rs (events ++ more) feedback).outcome = .ok others ∧ first ∪ others = r) ∧
    -- queries that are answered have derived events, which are none without feedback
    (∀ first, (c.evaluate qs events feedback).outcome = .ok first →
      ∃ more, c.derivedEvents qs events feedback = .ok more ∧ (feedback = false → more = [])) ∧
    -- without feedback queries are answered one at a time
    ∀ r, (c.evaluate qs events false).outcome = .ok r ↔
      ∃ each, (qs.mapM fun q => (c.evaluate [q] events false).outcome) = .ok each ∧
        each.foldl (· ∪ ·) ∅ = r := by
  refine ⟨fun r => evaluate_append_eq_ok_iff, fun first hfirst => ?_,
    fun r => evaluate_eq_ok_iff_each⟩
  obtain ⟨more, hmore⟩ := exists_derivedEvents hfirst
  refine ⟨more, hmore, ?_⟩
  rintro rfl
  exact derivedEvents_eq_nil hmore

end Cache

end TimedInference
