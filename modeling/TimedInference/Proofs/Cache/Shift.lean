import TimedInference.Proofs.Cache.Batches
import TimedInference.Proofs.Cache.Reuse
import TimedInference.Proofs.Log.Success
import TimedInference.Proofs.Term.Timestamps

/-!
# Answers at another time

Queries and events that are moved together by one shift are the same in the frames of the entries
(`Event.rebase_moved`), so each query finds the results it found before, and the events that it derives
from them are moved too (`Feedback.derive_moved`).  Along a list of queries the events and the results so
far stay moved (`Cache.answer_moved`).  So moved queries over moved events give the results at the moved
time (`Cache.evaluate_shifted`).
-/

namespace TimedInference

variable {α : Type} [Probability α]

/-! ## Moved queries and events -/

/-- The query at another time. -/
def Query.moved (q : Query) (shift : Int) : Query := { q with time := q.time + shift }

/-- The plan for the query at another time. -/
def Planned.moved (p : Planned α) (shift : Int) : Planned α :=
  { p with query := p.query.moved shift }

namespace Event

/-- An event and the frame that move together leave the key. -/
theorem key?_moved (e : Event α) (shift step : Int) :
    (e.moved step).key? (shift + step) = e.key? shift := by
  have htime : e.time + step - (shift + step) = e.time - shift := by omega
  show ((Time.fit? (e.time + step - (shift + step))).map _).map _ = _
  rw [htime]
  rfl

/-- Moved events are the same in the frame of a moved query. -/
theorem rebase_moved (events : List (Event α)) (shift step : Int) :
    rebase (events.map (·.moved step)) (shift + step) = rebase events shift := by
  unfold rebase
  rw [List.foldl_map]
  congr 1
  funext m e
  rw [addTo, addTo, key?_moved]
  rfl

end Event

/-! ## Feedback -/

namespace Feedback

/-- A result becomes an event that is moved with the frame. -/
theorem event?_moved (f : Feedback) {shift step : Int} {result : Term × α}
    {e e' : Option (Event α)} (h : f.event? shift result = .ok e)
    (h' : f.event? (shift + step) result = .ok e') : e' = e.map (·.moved step) := by
  unfold event? at h h'
  cases ht : result.1.intArg? f.timePosition with
  | none =>
    rw [ht] at h h'
    obtain rfl := Except.ok.inj h
    exact (Except.ok.inj h').symm
  | some time =>
    simp only [ht, bind_eq_ok, mapError_eq_ok, Time.move_eq_ok_iff] at h h'
    obtain ⟨_, ⟨-, rfl⟩, _, ⟨-, rfl⟩, event, hevent, hpure⟩ := h
    obtain ⟨_, ⟨-, rfl⟩, _, ⟨-, rfl⟩, event', hevent', hpure'⟩ := h'
    obtain rfl := Except.ok.inj hpure
    obtain rfl := Except.ok.inj hpure'
    unfold Event.ofProbability at hevent hevent'
    split at hevent
    · rename_i hunit
      rw [dif_pos hunit] at hevent'
      obtain rfl := Except.ok.inj hevent
      obtain rfl := Except.ok.inj hevent'
      have htime : time + (shift + step) + f.offset = time + shift + f.offset + step := by omega
      simp [Event.moved, htime]
    · simp at hevent

/-- The events that are derived at a moved time are moved. -/
theorem derive_moved (f : Feedback) {shift step : Int} {raw : Evaluation α}
    {events events' : List (Event α)} (h : f.derive raw shift = .ok events)
    (h' : f.derive raw (shift + step) = .ok events') : events' = events.map (·.moved step) := by
  unfold derive at h h'
  obtain ⟨es, hes, hpure⟩ := bind_eq_ok.1 h
  obtain ⟨es', hes', hpure'⟩ := bind_eq_ok.1 h'
  obtain rfl := Except.ok.inj hpure
  obtain rfl := Except.ok.inj hpure'
  have hmoved : es' = es.map (Option.map (·.moved step)) :=
    mapM_eq_map_of_forall (fun r e e' => f.event?_moved) hes hes'
  rw [hmoved, List.filterMap_map, List.map_filterMap]
  rfl

end Feedback

namespace Cache

/-! ## One query -/

/-- What a query that is answered does: in the frame of its entry it finds results, moves them to its own
time, and derives events. -/
structure Answers (p : Planned α) (events : List (Event α)) (shift : Int) (raw : Evaluation α)
    (results : List (Term × α)) (derived : List (Event α)) : Prop where
  shift_eq : p.query.time - p.entry.base = shift
  raw_eq : ((p.entry.assign (Event.rebase events shift)).mapError CacheError.engine >>= fun w =>
    (p.entry.circuit.evaluate w).mapError CacheError.engine) = .ok raw
  results_eq : (raw.toList.mapM fun r =>
    (p.query.template.translate r.1 shift).map fun atom => (atom, r.2)) = .ok results
  derived_eq : (Cache.derived p raw shift).outcome = .ok derived

/-- The first of some queries is answered, and then the others, with its events and its results. -/
theorem exists_answers_of_answer_cons {p : Planned α} {ps : List (Planned α)}
    {events : List (Event α)} {found r : Evaluation α}
    (h : (answer (p :: ps) events found).outcome = .ok r) :
    ∃ shift raw results derived, Answers p events shift raw results derived ∧
      (answer ps (events ++ derived) (found.insertMany results)).outcome = .ok r := by
  unfold answer at h
  simp only [Logged.outcome_bind, outcome_results, bind_eq_ok, mapError_eq_ok] at h
  obtain ⟨shift, hshift, ⟨_, _⟩, ⟨w, hw, raw, hraw, results, hresults, hpair⟩, derived, hderived,
    hrest⟩ := h
  obtain ⟨rfl, rfl⟩ := Prod.mk.inj (Except.ok.inj hpair)
  refine ⟨shift, raw, results, derived, ⟨?_, ?_, hresults, hderived⟩, hrest⟩
  · exact (Time.shiftFrom_eq_ok_iff.1 (mapError_eq_ok.1 hshift)).2
  · simp only [bind_eq_ok, mapError_eq_ok]
    exact ⟨w, hw, hraw⟩

/-- Events that are derived are moved with the frame. -/
theorem derived_moved {p : Planned α} {raw : Evaluation α} {shift step : Int}
    {events events' : List (Event α)} (h : (derived p raw shift).outcome = .ok events)
    (h' : (derived (p.moved step) raw (shift + step)).outcome = .ok events') :
    events' = events.map (·.moved step) := by
  unfold derived at h h'
  have hfeedback : (p.moved step).feedback = p.feedback := rfl
  rw [hfeedback] at h'
  cases hf : p.feedback with
  | none =>
    rw [hf] at h h'
    obtain rfl := Except.ok.inj h
    exact (Except.ok.inj h').symm
  | some f =>
    simp only [hf, Logged.outcome_bind, bind_eq_ok] at h h'
    obtain ⟨es, hes, _, -, hpure⟩ := h
    obtain ⟨es', hes', _, -, hpure'⟩ := h'
    obtain rfl := Except.ok.inj hpure
    obtain rfl := Except.ok.inj hpure'
    exact f.derive_moved hes hes'

/-- A moved query over moved events gives moved results and derives moved events. -/
theorem Answers.moved {p : Planned α} {events : List (Event α)} {step shift shift' : Int}
    {raw raw' : Evaluation α} {results results' : List (Term × α)}
    {derived derived' : List (Event α)} (h : Answers p events shift raw results derived)
    (h' : Answers (p.moved step) (events.map (·.moved step)) shift' raw' results' derived') :
    results' = results.map (fun r => (r.1.movedArg p.query.template.position step, r.2)) ∧
      derived' = derived.map (·.moved step) := by
  obtain rfl : shift + step = shift' := by
    have hshift : p.query.time + step - p.entry.base = shift' := h'.shift_eq
    have := h.shift_eq
    omega
  -- in the frame of the entry both runs see the same events
  obtain rfl : raw = raw' := by
    have hraw := h'.raw_eq
    rw [Event.rebase_moved] at hraw
    exact Except.ok.inj (h.raw_eq.symm.trans hraw)
  constructor
  · refine mapM_eq_map_of_forall (fun r s s' hs hs' => ?_) h.results_eq h'.results_eq
    obtain ⟨t, ht, rfl⟩ := map_eq_ok.1 hs
    obtain ⟨t', ht', rfl⟩ := map_eq_ok.1 hs'
    have htime : t = r.1.movedArg p.query.template.position shift :=
      Term.eq_movedArg_of_moveArg (mapError_eq_ok.1 ht)
    have htime' : t' = r.1.movedArg p.query.template.position (shift + step) :=
      Term.eq_movedArg_of_moveArg (mapError_eq_ok.1 ht')
    rw [htime, htime', Term.movedArg_movedArg]
  · exact derived_moved h.derived_eq h'.derived_eq

/-! ## Several queries -/

/-- Along moved queries the events and the results stay moved. -/
theorem answer_moved {position : Nat} {step : Int} {planned : List (Planned α)}
    (hp : ∀ p ∈ planned, p.query.template.position = position) {events : List (Event α)}
    {found found' r r' : Evaluation α} (hfound : Rekeyed (Term.movedArg position step) found found')
    (h : (answer planned events found).outcome = .ok r)
    (h' : (answer (planned.map (·.moved step)) (events.map (·.moved step)) found').outcome =
      .ok r') : Rekeyed (Term.movedArg position step) r r' := by
  induction planned generalizing events found found' with
  | nil =>
    obtain rfl := Except.ok.inj h
    obtain rfl := Except.ok.inj h'
    exact hfound
  | cons p ps ih =>
    rw [List.map_cons] at h'
    -- both runs answer the first query, and go on from results and events that are moved again
    obtain ⟨shift, raw, results, derived, hanswers, hrest⟩ := exists_answers_of_answer_cons h
    obtain ⟨shift', raw', results', derived', hanswers', hrest'⟩ := exists_answers_of_answer_cons h'
    obtain ⟨rfl, rfl⟩ := hanswers.moved hanswers'
    rw [← List.map_append] at hrest'
    refine ih (fun p hm => hp p (List.mem_cons_of_mem _ hm)) ?_ hrest hrest'
    rw [hp p List.mem_cons_self]
    exact hfound.insertMany (Term.movedArg_injective position step) results

omit [Probability α] in
/-- A query is planned alike at every time. -/
theorem plan_moved (c : Cache α) (feedback : Bool) (q : Query) (step : Int) :
    c.plan feedback (q.moved step) = (c.plan feedback q).map (·.moved step) := by
  have hidentifier : (q.moved step).identifier = q.identifier := rfl
  have htemplate : (q.moved step).template = q.template := rfl
  unfold plan
  rw [hidentifier, htemplate]
  cases c.entries[q.identifier]? with
  | none => rfl
  | some entry =>
    cases feedback with
    | false => rfl
    | true => cases q.template.feedback <;> rfl

omit [Probability α] in
/-- The plan of a query is about this query. -/
theorem query_eq_of_plan {c : Cache α} {feedback : Bool} {q : Query} {p : Planned α}
    (h : c.plan feedback q = .ok p) : p.query = q :=
  (plan_eq_ok_iff.1 h).1

omit [Probability α] in
theorem mapM_plan_moved {c : Cache α} {feedback : Bool} {queries : List Query}
    {planned : List (Planned α)} (h : queries.mapM (c.plan feedback) = .ok planned) (step : Int) :
    (queries.map (·.moved step)).mapM (c.plan feedback) = .ok (planned.map (·.moved step)) := by
  rw [mapM_eq_ok_iff] at h ⊢
  rw [List.forall₂_map_left_iff, List.forall₂_map_right_iff]
  refine h.imp fun q p hqp => ?_
  rw [plan_moved, hqp]
  rfl

/-- A call that succeeds has planned its queries and answered them. -/
theorem exists_of_evaluate {c : Cache α} {queries : List Query} {events : List (Event α)}
    {feedback : Bool} {r : Evaluation α} (h : (c.evaluate queries events feedback).outcome = .ok r) :
    ∃ planned, queries.mapM (c.plan feedback) = .ok planned ∧
      (answer planned events ∅).outcome = .ok r := by
  unfold evaluate at h
  simp only [Logged.outcome_bind, Logged.outcome_ofExcept, bind_eq_ok] at h
  obtain ⟨_, -, planned, hplanned, found, hfound, _, -, hpure⟩ := h
  obtain rfl := Except.ok.inj hpure
  exact ⟨planned, hplanned, hfound⟩

/-- Queries that ask at one position, asked over events at another time, give the results that they gave,
moved to that time. -/
theorem evaluate_shifted (c : Cache α) {position : Nat} {step : Int} {queries : List Query}
    (hq : ∀ q ∈ queries, q.template.position = position) {events : List (Event α)}
    {feedback : Bool} {r r' : Evaluation α}
    (h : (c.evaluate queries events feedback).outcome = .ok r)
    (h' : (c.evaluate (queries.map (·.moved step)) (events.map (·.moved step)) feedback).outcome =
      .ok r') :
    r'.toList = r.toList.map fun s => (s.1.movedArg position step, s.2) := by
  obtain ⟨planned, hplanned, hr⟩ := exists_of_evaluate h
  obtain ⟨planned', hplanned', hr'⟩ := exists_of_evaluate h'
  obtain rfl := Except.ok.inj ((mapM_plan_moved hplanned step).symm.trans hplanned')
  have hposition : ∀ p ∈ planned, p.query.template.position = position := by
    intro p hp
    obtain ⟨q, hqm, hqp⟩ := exists_of_mem_mapM hplanned hp
    rw [query_eq_of_plan hqp]
    exact hq q hqm
  have hrekeyed : Rekeyed (Term.movedArg position step) r r' :=
    answer_moved hposition (.empty _) hr hr'
  exact hrekeyed.toList_eq (Term.cmp_movedArg position step)

/-- Whether the game is won, where each win is the heads of the next time. -/
def winAgain : QueryTemplate := { win with feedback := some ⟨heads, 1, 0⟩ }

/-- The game at time 3 and after it. -/
def rounds : List Query := [⟨winAgain, 3⟩, ⟨winAgain, 4⟩]

/-- A fair coin at time 3. -/
def fairCoin : List (Event Rat) := [⟨heads, 3, 1 / 2, by decide +kernel⟩]

/-- Five steps later the second round is won with the same probability, though its coin is known only from
the first one. -/
theorem evaluate_shifted_rounds :
    ∃ (c : Cache Rat) (r r' : Evaluation Rat),
      (build (.ofKind .worlds 20 100) true headsAtThree [⟨winAgain, 3⟩]
        "win(T) :- heads(T).").outcome = .ok c ∧
      (c.evaluate rounds fairCoin true).outcome = .ok r ∧
      (c.evaluate (rounds.map (·.moved 5)) (fairCoin.map (·.moved 5)) true).outcome = .ok r' ∧
      r[Term.compound "win" [.int 4]]? = some (1 / 2) ∧
      r'.toList = r.toList.map fun s => (s.1.movedArg 0 5, s.2) := by
  have hplayed : ((build (.ofKind .worlds 20 100) true headsAtThree [⟨winAgain, 3⟩]
      "win(T) :- heads(T).").outcome.toOption.bind fun c =>
        (c.evaluate (rounds.map (·.moved 5)) (fairCoin.map (·.moved 5)) true).outcome.toOption.bind
          fun _ => (c.evaluate rounds fairCoin true).outcome.toOption.bind
            (·[Term.compound "win" [.int 4]]?)) = some (1 / 2) := by decide +kernel
  obtain ⟨c, hc, hplayed⟩ := Option.bind_eq_some_iff.1 hplayed
  obtain ⟨r', hr', hplayed⟩ := Option.bind_eq_some_iff.1 hplayed
  obtain ⟨r, hr, hwon⟩ := Option.bind_eq_some_iff.1 hplayed
  have hposition : ∀ q ∈ rounds, q.template.position = 0 := by decide
  have hshifted := evaluate_shifted c hposition (eq_ok_of_toOption hr) (eq_ok_of_toOption hr')
  exact ⟨c, r, r', eq_ok_of_toOption hc, eq_ok_of_toOption hr, eq_ok_of_toOption hr', hwon, hshifted⟩

end Cache

end TimedInference
