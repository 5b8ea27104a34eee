import TimedInference.Proofs.Cache.Building
import TimedInference.Proofs.Cache.Shift
import TimedInference.Proofs.Cache.Tracked

/-!
# First events

In the frame of an entry an event is recognised by its key, and of several events with one key the first
counts.  So an answer depends on its events only through the probability of the first event of each
tracked fact (`Planned.answer_congr`).  Two lists of events that agree in this way still agree when the
same events are derived from both, so whole batches give the same outcome (`Cache.batch_congr`,
`Cache.outcome_evaluate_congr`).  An event that no query has a use for after the earlier ones can be left
out, be it the caller's or derived (`Cache.outcome_evaluate_filter`).  In a cache that was built, events of
declared facts without a node are such events (`Entry.idle_of_mem_unbound`): declarations differ in their
keys, so the event of one is not about another that is tracked.
-/

namespace TimedInference

variable {α : Type} [Probability α]

/-- The first event that a key recognises in the frame of a shift. -/
def Event.first? (events : List (Event α)) (shift : Int) (key : String) : Option (Event α) :=
  events.find? fun e => e.key? shift = some key

/-! ## In the frame of an entry -/

namespace Entry

/-- Two lists of events agree in the frame of an entry when the first events of each tracked fact have
the same probability, or neither list has an event of the fact. -/
def Agree (entry : Entry α) (shift : Int) (events events' : List (Event α)) : Prop :=
  ∀ fact ∈ entry.tracked,
    (Event.first? events shift fact.key).map (·.probability) =
      (Event.first? events' shift fact.key).map (·.probability)

variable {entry : Entry α} {shift : Int} {events events' : List (Event α)}

/-- Lists that agree set the same weights. -/
theorem assign_congr (h : entry.Agree shift events events') :
    entry.assign (Event.rebase events shift) = entry.assign (Event.rebase events' shift) := by
  rw [assign_eq_setAll, assign_eq_setAll]
  congr 1
  apply List.map_congr_left
  intro fact hfact
  rw [Std.ExtTreeMap.getD_eq_getD_getElem?, Std.ExtTreeMap.getD_eq_getD_getElem?,
    Event.getElem?_rebase, Event.getElem?_rebase]
  exact congrArg (fun p : Option α => (fact.node, p.getD 0)) (h fact hfact)

/-- Lists that agree still do when the same events are added. -/
theorem Agree.append (h : entry.Agree shift events events') (more : List (Event α)) :
    entry.Agree shift (events ++ more) (events' ++ more) := by
  intro fact hfact
  have hfirst := h fact hfact
  simp only [Event.first?] at hfirst
  simp only [Event.first?, List.find?_append, Option.map_or, hfirst]

/-- An event is idle after others when it is out of the frame, about a fact that is not tracked, or about
a fact that an earlier event is about. -/
def Idle (entry : Entry α) (shift : Int) (earlier : List (Event α)) (e : Event α) : Prop :=
  e.key? shift = none ∨ (∀ fact ∈ entry.tracked, e.key? shift ≠ some fact.key) ∨
    ∃ d ∈ earlier, d.key? shift = e.key? shift

/-- Events of declared facts without a node are idle. -/
theorem idle_of_mem_unbound {engine : Engine α} {warnUnbound : Bool} {program : String}
    {declarations : List (Event α)} {query : Query}
    (h : (compile engine warnUnbound program declarations query).outcome = .ok entry)
    {mock : String} (hm : mock ∈ entry.unbound) {e : Event α}
    (he : e.key? shift = some (Text.normalize mock)) (earlier : List (Event α)) :
    entry.Idle shift earlier e := by
  rw [outcome_compile] at h
  obtain ⟨c, -, rfl⟩ := map_eq_ok.1 h
  obtain ⟨hdeclared, hnone⟩ := List.mem_filter.1 hm
  refine .inr (.inl fun fact hfact hkey => ?_)
  obtain ⟨hdeclared', hnormal, hnode⟩ := Binding.mem_tracked_iff.1 hfact
  rw [he, hnormal] at hkey
  obtain rfl := List.inj_on_of_nodup_map Binding.nodup_normalize_distinctMocks hdeclared hdeclared'
    (Option.some.inj hkey)
  simp [hnode] at hnone

/-- Idle events can be left out. -/
theorem agree_filter {earlier more : List (Event α)} {keep : Event α → Bool}
    (h : ∀ e ∈ more, keep e = false → entry.Idle shift earlier e) (later : List (Event α)) :
    entry.Agree shift (earlier ++ more ++ later) (earlier ++ more.filter keep ++ later) := by
  apply Agree.append
  intro fact hfact
  simp only [Event.first?, List.find?_append, List.find?_filter]
  cases hearlier : earlier.find? fun e => e.key? shift = some fact.key with
  | some d => rfl
  | none =>
    -- no earlier event is about the fact, so all events that are about it are kept
    rw [List.find?_eq_none] at hearlier
    refine congrArg (fun e => (none.or e).map _) (List.find?_congr fun e he => ?_)
    by_cases hkey : e.key? shift = some fact.key
    · have hkeep : keep e = true := by
        rw [← Bool.not_eq_false]
        intro hdrop
        rcases h e he hdrop with hout | huntracked | ⟨d, hd, hsame⟩
        · rw [hkey] at hout
          simp at hout
        · exact huntracked fact hfact hkey
        · exact hearlier d hd (by simp [hsame, hkey])
      simp [hkey, hkeep]
    · simp [hkey]

end Entry

/-! ## Along a batch -/

/-- Two lists of events agree for a query that is planned. -/
def Planned.Agree (p : Planned α) (events events' : List (Event α)) : Prop :=
  ∀ shift, Time.shiftFrom p.entry.base p.query.time = .ok shift → p.entry.Agree shift events events'

/-- A query has one answer over lists of events that agree. -/
theorem Planned.answer_congr {p : Planned α} {events events' : List (Event α)}
    (h : p.Agree events events') : p.answer events = p.answer events' := by
  rw [Planned.answer, Planned.answer]
  cases hshift : Time.shiftFrom p.entry.base p.query.time with
  | error o => rfl
  | ok shift =>
    have hresults : (Cache.results p events shift).outcome =
        (Cache.results p events' shift).outcome := by
      rw [Cache.outcome_results, Cache.outcome_results, Entry.assign_congr (h shift hshift)]
    show ((Cache.results p events shift).outcome >>= _) = _
    rw [hresults]
    rfl

namespace Cache

/-- The answers of a batch are the same over lists of events that agree for each of its queries: what is
derived from the one is derived from the other, so the lists agree for the queries that come next. -/
theorem batch_congr {ps : List (Planned α)} {events events' : List (Event α)}
    (h : ∀ p ∈ ps, p.Agree events events') : batch ps events = batch ps events' := by
  induction ps generalizing events events' with
  | nil => rfl
  | cons p ps ih =>
    rw [List.forall_mem_cons] at h
    rw [batch, batch, Planned.answer_congr h.1]
    cases p.answer events' with
    | error e => rfl
    | ok first =>
      have hnext : ∀ p ∈ ps, p.Agree (events ++ first.derived) (events' ++ first.derived) := by
        intro p hp shift hshift
        apply Entry.Agree.append
        exact h.2 p hp shift hshift
      show (batch ps (events ++ first.derived) >>= _) = _
      rw [ih hnext]
      rfl

/-- A query is answered in the frame of an entry and a shift. -/
def InFrame (c : Cache α) (q : Query) (entry : Entry α) (shift : Int) : Prop :=
  c.entries[q.identifier]? = some entry ∧ Time.shiftFrom entry.base q.time = .ok shift

/-- Two lists of events agree for some queries when they do in the frame of each. -/
def Agree (c : Cache α) (queries : List Query) (events events' : List (Event α)) : Prop :=
  ∀ q ∈ queries, ∀ entry shift, c.InFrame q entry shift → entry.Agree shift events events'

/-- An event is idle for some queries after others when it is in the frame of each. -/
def Idle (c : Cache α) (queries : List Query) (earlier : List (Event α)) (e : Event α) : Prop :=
  ∀ q ∈ queries, ∀ entry shift, c.InFrame q entry shift → entry.Idle shift earlier e

theorem answers_congr {c : Cache α} {queries : List Query} {events events' : List (Event α)}
    (h : c.Agree queries events events') (feedback : Bool) :
    c.answers queries events feedback = c.answers queries events' feedback := by
  rw [answers, answers]
  cases hplanned : queries.mapM (c.plan feedback) with
  | error e => rfl
  | ok planned =>
    show batch planned events = batch planned events'
    apply batch_congr
    intro p hp shift hshift
    obtain ⟨q, hq, hplan⟩ := exists_of_mem_mapM hplanned hp
    obtain ⟨rfl, hentry, -⟩ := plan_eq_ok_iff.1 hplan
    exact h p.query hq p.entry shift ⟨hentry, hshift⟩

/-- Idle events can be left out of a call. -/
theorem outcome_evaluate_filter {c : Cache α} {queries : List Query}
    {earlier more : List (Event α)} {keep : Event α → Bool}
    (h : ∀ e ∈ more, keep e = false → c.Idle queries earlier e) (later : List (Event α))
    (feedback : Bool) :
    (c.evaluate queries (earlier ++ more ++ later) feedback).outcome =
      (c.evaluate queries (earlier ++ more.filter keep ++ later) feedback).outcome := by
  rw [outcome_evaluate_eq_merged, outcome_evaluate_eq_merged]
  congr 1
  apply answers_congr
  intro q hq entry shift hframe
  exact Entry.agree_filter (fun e he hdrop => h e he hdrop q hq entry shift hframe) later

/-- The outcome of a call depends on the first event of each tracked fact only: it is the same over lists
of events that agree, also when idle events are left out of the caller's list, or out of those that
earlier queries of the batch derive.  In a cache that was built, events of declared facts without a node are
idle. -/
theorem outcome_evaluate_congr (c : Cache α) (queries : List Query) (feedback : Bool) :
    (∀ events events', c.Agree queries events events' →
      (c.evaluate queries events feedback).outcome =
        (c.evaluate queries events' feedback).outcome) ∧
    (∀ earlier more later keep, (∀ e ∈ more, keep e = false → c.Idle queries earlier e) →
      (c.evaluate queries (earlier ++ more ++ later) feedback).outcome =
        (c.evaluate queries (earlier ++ more.filter keep ++ later) feedback).outcome) ∧
    (∀ before events keep r,
      (∀ more, c.derivedEvents before events feedback = .ok more →
        ∀ e ∈ more, keep e = false → c.Idle queries events e) →
      ((c.evaluate (before ++ queries) events feedback).outcome = .ok r ↔
        ∃ first more others, (c.evaluate before events feedback).outcome = .ok first ∧
          c.derivedEvents before events feedback = .ok more ∧
          (c.evaluate queries (events ++ more.filter keep) feedback).outcome = .ok others ∧
          first ∪ others = r)) ∧
    ∀ engine warnUnbound declarations compiled program,
      (build engine warnUnbound declarations compiled program).outcome = .ok c →
      ∀ q entry shift, c.InFrame q entry shift → ∀ mock ∈ entry.unbound, ∀ (e : Event α) earlier,
        e.key? shift = some (Text.normalize mock) → entry.Idle shift earlier e := by
  refine ⟨fun events events' h => ?_, fun earlier more later keep h =>
    outcome_evaluate_filter h later feedback, fun before events keep r h => ?_,
    fun engine warnUnbound declarations compiled program hbuild q entry shift hframe mock hmock e
      earlier he => ?_⟩
  · rw [outcome_evaluate_eq_merged, outcome_evaluate_eq_merged, answers_congr h]
  · rw [evaluate_append_eq_ok_iff]
    have hfilter {more : List (Event α)} (hmore : c.derivedEvents before events feedback = .ok more) :
        (c.evaluate queries (events ++ more) feedback).outcome =
          (c.evaluate queries (events ++ more.filter keep) feedback).outcome := by
      simpa only [List.append_nil] using outcome_evaluate_filter (h more hmore) [] feedback
    constructor
    · rintro ⟨first, more, others, hfirst, hmore, hothers, rfl⟩
      rw [hfilter hmore] at hothers
      exact ⟨first, more, others, hfirst, hmore, hothers, rfl⟩
    · rintro ⟨first, more, others, hfirst, hmore, hothers, rfl⟩
      rw [← hfilter hmore] at hothers
      exact ⟨first, more, others, hfirst, hmore, hothers, rfl⟩
  · obtain ⟨q', -, hcompile⟩ := (getElem?_entries_eq_some_iff hbuild).1 hframe.1
    exact Entry.idle_of_mem_unbound hcompile hmock he earlier

/-- The coin at time 3 again, now loaded. -/
def loadedCoin : List (Event Rat) := [⟨heads, 3, 1, by decide +kernel⟩]

/-- The coin at time 3 again, now never heads. -/
def emptyCoin : List (Event Rat) := [⟨heads, 3, 0, by decide +kernel⟩]

/-- Rain, which the game does not ask for. -/
def rain : FactTemplate := ⟨"rain", FactTemplate.defaultFormat⟩

/-- Rain at time 3. -/
def rainSeen : List (Event Rat) := [⟨rain, 3, 2 / 5, by decide +kernel⟩]

/-- Lists that begin with one event of the coin agree, since a second one never comes first. -/
theorem agree_rounds (c : Cache Rat) :
    c.Agree rounds (fairCoin ++ loadedCoin) (fairCoin ++ emptyCoin) := by
  intro q _ entry shift _ fact _
  have hkey (p : Rat) (hp : Probability.inUnit p = true) :
      (⟨heads, 3, p, hp⟩ : Event Rat).key? shift = (Event.declaration heads 3 : Event Rat).key? shift :=
    rfl
  simp only [Event.first?, fairCoin, loadedCoin, emptyCoin, List.singleton_append,
    List.find?_cons, List.find?_nil, hkey]
  cases decide ((Event.declaration heads 3 : Event Rat).key? shift = some fact.key) <;> rfl

/-- A second event of the coin changes nothing in either round, whatever its probability, and neither does an
event of rain, which is declared but has no node. -/
theorem outcome_evaluate_congr_rounds :
    ∃ c : Cache Rat, (build (.ofKind .worlds 20 100) true
        (headsAtThree ++ [.declaration rain 3]) [⟨winAgain, 3⟩] "win(T) :- heads(T).").outcome =
          .ok c ∧
      (c.evaluate rounds (fairCoin ++ loadedCoin) true).outcome =
        (c.evaluate rounds (fairCoin ++ emptyCoin) true).outcome ∧
      (c.evaluate rounds (fairCoin ++ loadedCoin) true).outcome =
        (c.evaluate rounds fairCoin true).outcome ∧
      (c.evaluate [⟨winAgain, 3⟩] (fairCoin ++ rainSeen) true).outcome =
        (c.evaluate [⟨winAgain, 3⟩] fairCoin true).outcome := by
  have hbuilt : ((build (.ofKind .worlds 20 100) true (headsAtThree ++ [.declaration rain 3])
      [⟨winAgain, 3⟩] "win(T) :- heads(T).").outcome.toOption.map fun c : Cache Rat =>
        c.entries["win"]?.map fun e => (e.base, e.unbound)) =
          some (some (3, ["0::rain(3)."])) := by decide +kernel
  obtain ⟨c, hc, hentry⟩ := Option.map_eq_some_iff.1 hbuilt
  obtain ⟨entry, hentry, hunbound⟩ := Option.map_eq_some_iff.1 hentry
  obtain ⟨hbase, hunbound⟩ := Prod.mk.inj hunbound
  have hrounds := outcome_evaluate_congr c rounds true
  have hfirst := outcome_evaluate_congr c [⟨winAgain, 3⟩] true
  have hloaded := hrounds.2.1 fairCoin loadedCoin [] (fun _ => false) fun e he _ q _ entry shift _ => by
    rw [List.mem_singleton.1 he]
    exact .inr (.inr ⟨_, List.mem_singleton_self _, rfl⟩)
  have hrain := hfirst.2.1 fairCoin rainSeen [] (fun _ => false)
    fun e he _ q hq entry' shift hframe => by
      rw [List.mem_singleton.1 hq] at hframe
      obtain rfl := Option.some.inj (hentry.symm.trans hframe.1)
      have hshift := hframe.2
      rw [hbase] at hshift
      obtain rfl := Except.ok.inj hshift
      rw [List.mem_singleton.1 he]
      refine hfirst.2.2.2 _ _ _ _ _ (eq_ok_of_toOption hc) _ _ _ hframe "0::rain(3)." ?_ _ _ ?_
      · rw [hunbound]
        exact List.mem_singleton_self _
      · decide +kernel
  exact ⟨c, eq_ok_of_toOption hc, hrounds.1 _ _ (agree_rounds c), by simpa using hloaded,
    by simpa using hrain⟩

end Cache

end TimedInference
