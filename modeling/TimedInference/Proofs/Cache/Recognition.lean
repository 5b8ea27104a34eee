import TimedInference.Number.Rational
import TimedInference.Proofs.Cache.Building
import TimedInference.Proofs.Cache.Shift
import TimedInference.Proofs.Cache.Tracked
import TimedInference.Proofs.Template.Verbatim

/-!
# Which events set which weights

An event is recognised by its text with probability zero, without white space and at the time to which it is
moved.  For families in the default format whose names bring in no placeholder, this text shows the time and,
up to white space, the name (`FactTemplate.normalize_mock_eq_iff`).  So the weight of a tracked fact is the
probability of the first event of its name and time, and events of other facts do not count
(`Cache.matching_precise`).
-/

namespace TimedInference

variable {α : Type} [Probability α]

/-! ## Events by name and time -/

namespace Event

/-- The probability of the first event at a time that has a name up to white space; zero without one. -/
def probabilityNamed (events : List (Event α)) (name : String) (time : Int) : α :=
  ((events.find? fun e => Text.normalize e.identifier = Text.normalize name ∧ e.time = time).map
    (·.probability)).getD 0

/-- An event is recognised as a fact when it has the name of the fact, up to white space, and the time of the
fact after the move. -/
theorem key?_eq_some_iff {d e : Event α} (hd : d.template.Verbatim) (ht : Time.Fits d.time)
    (he : e.template.Verbatim) (shift : Int) :
    e.key? shift = some (Text.normalize d.mock) ↔
      Text.normalize e.identifier = Text.normalize d.identifier ∧ e.time = d.time + shift :=
  key?_eq_some_iff_of_normalize ht (fun _ => FactTemplate.normalize_mock_eq_iff he hd) shift

/-- Among facts without white space in their texts, the fact of a declaration gets the probability of
its first event. -/
theorem getD_rebase_normalize {events : List (Event α)} (he : ∀ e ∈ events, e.template.Verbatim)
    {d : Event α} (hd : d.template.Verbatim) (ht : Time.Fits d.time) (shift : Int) :
    (rebase events shift).getD (Text.normalize d.mock) 0 =
      probabilityNamed events d.identifier (d.time + shift) :=
  getD_rebase_eq fun e hm => key?_eq_some_iff hd ht (he e hm) shift

end Event

/-! ## Weights -/

namespace Entry

/-- Weights of an entry in which every tracked fact has the probability of the first event of its name and
time, and every other node keeps the weight that it has from the program. -/
structure WeighsByName (entry : Entry α) (declarations events : List (Event α)) (shift : Int)
    (w : Weights α) : Prop where
  tracked : ∀ fact ∈ entry.tracked, ∃ d ∈ declarations, d.mock = fact.mock ∧
    w.get? fact.node = some (Event.probabilityNamed events d.identifier (d.time + shift))
  others : ∀ node, (∀ fact ∈ entry.tracked, fact.node ≠ node) →
    w.get? node = entry.circuit.baseline.get? node

/-- Events set the weights of a compiled entry by the names of its facts. -/
theorem exists_weighsByName {kind : EngineKind} {maxChoices atomLimit : Nat} {warnUnbound : Bool}
    {program : String} {declarations : List (Event α)} {query : Query} {entry : Entry α}
    (h : (compile (.ofKind kind maxChoices atomLimit) warnUnbound program declarations query).outcome =
      .ok entry) (hd : ∀ d ∈ declarations, d.template.Verbatim ∧ Time.Fits d.time)
    {events : List (Event α)} (he : ∀ e ∈ events, e.template.Verbatim) (shift : Int) :
    ∃ w, entry.assign (Event.rebase events shift) = .ok w ∧
      entry.WeighsByName declarations events shift w := by
  obtain ⟨g, hover⟩ := exists_isOver_of_compile h
  obtain ⟨w, hw⟩ := exists_assign_rebase h events shift
  have hgiven := assign_of_format h (fun d hm => (hd d hm).1.format_eq) hw
  refine ⟨w, hw, fun fact hfact => ?_, fun node hnode => get?_of_assign_of_ne hw hnode⟩
  -- a tracked fact is declared, and its key is the text of the declaration
  obtain ⟨d, hdm, hdf, hkey⟩ := hover.exists_declaration hfact
  refine ⟨d, hdm, hdf, ?_⟩
  rw [hgiven fact hfact, given, hkey, Event.getD_rebase_normalize he (hd d hdm).1 (hd d hdm).2]

end Entry

namespace Cache

/-- The text by which a fact is recognised shows its time.  If the name brings in no placeholder it also shows
the name, up to white space.  So in a cache of such facts the weight of every tracked fact is given by the
first event of its name and time, and by no other event. -/
theorem matching_precise (α : Type) [Probability α] :
    (∀ t u : FactTemplate, FactTemplate.ofIdentifier t.identifier = .ok t →
      FactTemplate.ofIdentifier u.identifier = .ok u → ∀ time time',
        Text.normalize (t.mock α time) = Text.normalize (u.mock α time') → time = time') ∧
    (∀ t u : FactTemplate, t.Verbatim → u.Verbatim → ∀ time time',
      Text.normalize (t.mock α time) = Text.normalize (u.mock α time') ↔
        Text.normalize t.identifier = Text.normalize u.identifier ∧ time = time') ∧
    ∀ (kind : EngineKind) (maxChoices atomLimit : Nat) (warnUnbound : Bool)
      (declarations : List (Event α)) (queries : List Query) (program : String) (c : Cache α),
      (build (.ofKind kind maxChoices atomLimit) warnUnbound declarations queries program).outcome =
        .ok c →
      (∀ d ∈ declarations, d.template.Verbatim ∧ Time.Fits d.time) →
      ∀ events : List (Event α), (∀ e ∈ events, e.template.Verbatim) →
      ∀ (id : String) (entry : Entry α), c.entries[id]? = some entry → ∀ shift,
        ∃ w, entry.assign (Event.rebase events shift) = .ok w ∧
          entry.WeighsByName declarations events shift w := by
  refine ⟨?_, ?_, ?_⟩
  · intro t u ht hu time time' h
    have hformat {t : FactTemplate} (ht : FactTemplate.ofIdentifier t.identifier = .ok t) :
        t.format = FactTemplate.defaultFormat := (FactTemplate.ofIdentifier_eq_ok_iff.1 ht).2.2
    exact (FactTemplate.eq_of_normalize_mock_eq (hformat ht) (hformat hu) h).2
  · intro t u ht hu time time'
    exact FactTemplate.normalize_mock_eq_iff ht hu
  · intro kind maxChoices atomLimit warnUnbound declarations queries program c hc hd events he id entry
      hentry shift
    obtain ⟨q, -, hcompile⟩ := (getElem?_entries_eq_some_iff hc).1 hentry
    exact Entry.exists_weighsByName hcompile hd he shift

theorem verbatim_heads : heads.Verbatim := ⟨by decide +kernel, by decide, by decide⟩

/-- The coin at time 3 has a text of its own, and the event of the coin sets its weight in the game. -/
theorem matching_precise_coin :
    Text.normalize (heads.mock Rat 3) ≠ Text.normalize (heads.mock Rat 4) ∧
      ∃ (c : Cache Rat) (entry : Entry Rat) (w : Weights Rat),
        gameCache = .ok c ∧ c.entries[win.identifier]? = some entry ∧
        entry.assign (Event.rebase fairCoin 0) = .ok w ∧
        entry.WeighsByName headsAtThree fairCoin 0 w := by
  obtain ⟨c, entry, hc, hentry⟩ := exists_gameEntry
  have hd : ∀ d ∈ headsAtThree, d.template.Verbatim ∧ Time.Fits d.time := by
    intro d hd
    rw [List.mem_singleton.1 hd]
    exact ⟨verbatim_heads, by decide⟩
  have he : ∀ e ∈ fairCoin, e.template.Verbatim := by
    intro e he
    rw [List.mem_singleton.1 he]
    exact verbatim_heads
  obtain ⟨htimes, -, hweights⟩ := matching_precise Rat
  obtain ⟨w, hw, hset⟩ := hweights _ _ _ _ _ _ _ c hc hd _ he _ entry hentry 0
  refine ⟨fun h => ?_, c, entry, w, hc, hentry, hw, hset⟩
  have htime := htimes heads heads verbatim_heads.made verbatim_heads.made 3 4 h
  exact absurd htime (by decide)

/-! ## Names that differ in white space -/

/-- The name of heads with a space in it. -/
def spacedHeads : FactTemplate := ⟨"he ads", FactTemplate.defaultFormat⟩

/-- An event of the other name at time 3. -/
def spacedCoin : List (Event Rat) := [⟨spacedHeads, 3, 1 / 5, by decide +kernel⟩]

/-- The names differ, but the texts of their facts are recognised as the same, and an event of one name sets
the weight of the fact that is declared under the other. -/
theorem matching_precise_spacedHeads :
    FactTemplate.ofIdentifier "he ads" = .ok spacedHeads ∧
      FactTemplate.ofIdentifier "heads" = .ok heads ∧ spacedHeads.identifier ≠ heads.identifier ∧
      Text.normalize (spacedHeads.mock Rat 3) = Text.normalize (heads.mock Rat 3) ∧
      ∃ (c : Cache Rat) (entry : Entry Rat) (w : Weights Rat),
        gameCache = .ok c ∧ c.entries[win.identifier]? = some entry ∧
        entry.tracked.map (·.mock) = [heads.mock Rat 3] ∧
        entry.assign (Event.rebase spacedCoin 0) = .ok w ∧
        entry.tracked.map (fun fact => w.get? fact.node) = [some (1 / 5)] := by
  refine ⟨by decide +kernel, by decide +kernel, by decide, by decide +kernel, ?_⟩
  have hbuilt : (gameCache.toOption.bind fun c => c.entries[win.identifier]?.bind fun entry =>
      (entry.assign (Event.rebase spacedCoin 0)).toOption.map fun w =>
        (entry.tracked.map (·.mock), entry.tracked.map fun fact => w.get? fact.node)) =
          some ([heads.mock Rat 3], [some (1 / 5)]) := by decide +kernel
  obtain ⟨c, hc, hbuilt⟩ := Option.bind_eq_some_iff.1 hbuilt
  obtain ⟨entry, hentry, hbuilt⟩ := Option.bind_eq_some_iff.1 hbuilt
  obtain ⟨w, hw, hpair⟩ := Option.map_eq_some_iff.1 hbuilt
  obtain ⟨htracked, hweight⟩ := Prod.mk.inj hpair
  exact ⟨c, entry, w, eq_ok_of_toOption hc, hentry, htracked, eq_ok_of_toOption hw, hweight⟩

end Cache

end TimedInference
