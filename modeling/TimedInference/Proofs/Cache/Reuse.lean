import TimedInference.Number.Rational
import TimedInference.Proofs.Cache.Answers
import TimedInference.Proofs.Grounding.Integers

/-!
# Reuse of a cache at another time

A program without integers, with facts and a query at times, is the same program at other times, up to
the function that moves all integers.  So the cache that is built for a query at one time answers the
query at another time as the cache does that is built for it there, with all declarations moved
(`Cache.evaluate_moved`).
-/

namespace TimedInference

open Syntax

/-! ## Families of queries -/

/-- A family of queries that ask for ground atoms, which programs can write. -/
structure QueryTemplate.Writable (t : QueryTemplate) : Prop where
  isFunctor : IsFunctor t.functor.toList
  lexical : ∀ u ∈ t.args, u.Lexical
  isGround : ∀ u ∈ t.args, u.isGround = true
  fits : ∀ u ∈ t.args, ∀ n ∈ u.integers, Time.Fits n

/-- A family of queries that ask for ground atoms in which only the timestamp is an integer. -/
structure QueryTemplate.Timeless (t : QueryTemplate) : Prop where
  isFunctor : IsFunctor t.functor.toList
  lexical : ∀ u ∈ t.args, u.Lexical
  isGround : ∀ u ∈ t.args, u.isGround = true
  integers : ∀ u ∈ t.args, u.integers = []

theorem set_insertIdx {β : Type} {bs : List β} {i : Nat} (h : i ≤ bs.length) (b c : β) :
    (bs.insertIdx i b).set i c = bs.insertIdx i c := by
  induction i generalizing bs with
  | zero => rfl
  | succ i ih =>
    cases bs with
    | nil => simp at h
    | cons d bs =>
      rw [List.insertIdx_succ_cons, List.insertIdx_succ_cons, List.set_cons_succ,
        ih (by simpa using h)]

namespace QueryTemplate

/-- A query has its time and its fixed arguments. -/
theorem mem_args_iff (t : QueryTemplate) (time : Int) (u : Term) :
    u ∈ t.args.insertIdx t.position (.int time) ↔ u = .int time ∨ u ∈ t.args :=
  List.mem_insertIdx t.position_le

/-- A result at one time is moved to the query's atom at another time. -/
theorem translate_atom (t : QueryTemplate) (time shift : Int) (h : Time.Fits (time + shift)) :
    t.translate (t.atom time) shift = .ok (t.atom (time + shift)) := by
  have harg : (t.atom time).intArg? t.position = some time := by
    rw [atom, Term.intArg?, Term.args, List.getElem?_insertIdx_self, if_pos t.position_le]
    rfl
  rw [translate, Term.moveArg_of_intArg? harg h, atom, Term.withArg, set_insertIdx t.position_le]
  rfl

/-- The results of the query at one time are all moved to the query's atom at another time. -/
theorem translate_of_mem_singleton (t : QueryTemplate) {atoms : List Term} {time shift time' : Int}
    (hatoms : atoms = [t.atom time]) (htime : time + shift = time') (h : Time.Fits time') :
    ∀ a ∈ atoms, t.translate a shift = .ok (t.atom time') := by
  intro a ha
  subst htime
  rw [hatoms, List.mem_singleton] at ha
  rw [ha, t.translate_atom time shift h]

variable {t : QueryTemplate}

namespace Writable

/-- The atom of a query that can be written is lexical. -/
theorem lexical_atom (h : t.Writable) (time : Int) : (t.atom time).Lexical := by
  refine ⟨h.isFunctor, Term.allLexical_iff.2 fun u hu => ?_⟩
  rcases (mem_args_iff t time u).1 hu with rfl | hu
  · trivial
  · exact h.lexical u hu

theorem isGround_atom (h : t.Writable) (time : Int) : (t.atom time).isGround = true := by
  rw [QueryTemplate.atom, Term.isGround, Term.areGround_eq_all, List.all_eq_true]
  intro u hu
  rcases (mem_args_iff t time u).1 hu with rfl | hu
  · rfl
  · exact h.isGround u hu

theorem fits_atom (h : t.Writable) {time : Int} (ht : Time.Fits time) :
    ∀ n ∈ (t.atom time).integers, Time.Fits n := by
  intro n hn
  rw [QueryTemplate.atom, Term.integers, Term.allIntegers_eq_flatMap, List.mem_flatMap] at hn
  obtain ⟨u, hu, hn⟩ := hn
  rcases (mem_args_iff t time u).1 hu with rfl | hu
  · rw [Term.integers, List.mem_singleton] at hn
    rwa [hn]
  · exact h.fits u hu n hn

end Writable

namespace Timeless

/-- A query without integers in its arguments can be written. -/
theorem writable (h : t.Timeless) : t.Writable where
  isFunctor := h.isFunctor
  lexical := h.lexical
  isGround := h.isGround
  fits u hu n hn := by
    rw [h.integers u hu] at hn
    simp at hn

/-- Mapping integers maps the time of a query only, if its arguments hold none. -/
theorem atom_mapInts (h : t.Timeless) (m : Int → Int) (time : Int) :
    (t.atom time).mapInts m = t.atom (m time) := by
  have hargs : t.args.map (Term.mapInts m) = t.args := by
    conv_rhs => rw [← List.map_id t.args]
    refine List.map_congr_left fun u hu => Term.mapInts_eq_self fun n hn => ?_
    rw [h.integers u hu] at hn
    simp at hn
  rw [QueryTemplate.atom, Term.mapInts, Term.mapAllInts_eq_map, List.map_insertIdx, hargs]
  rfl

end Timeless

end QueryTemplate

/-! ## Names -/

/-- Mapping integers keeps terms lexical, as functors and variables stay. -/
theorem Term.Lexical.mapInts {t : Term} (h : t.Lexical) (m : Int → Int) : (t.mapInts m).Lexical := by
  induction t with
  | var x => exact h
  | int n => exact h
  | compound f ts ih =>
    obtain ⟨hf, hts⟩ := h
    rw [Term.allLexical_iff] at hts
    rw [Term.mapInts, Term.mapAllInts_eq_map]
    refine ⟨hf, ?_⟩
    rw [Term.allLexical_iff, List.forall_mem_map]
    exact fun t ht => ih t ht (hts t ht)

variable {α : Type} {m : Int → Int}

/-- Atoms name the choices that they named before. -/
theorem GroundProgram.named_mapInts (hm : Increasing m) {g : GroundProgram α}
    (hg : ∀ c ∈ g.choices, c.atom.Lexical) {a : Term} (ha : a.Lexical) :
    (g.mapInts m).named[(a.mapInts m).text]? = g.named[a.text]? := by
  have htext (c : Choice α) (hc : c ∈ g.choices) :
      (c.mapInts m).atom.text = (a.mapInts m).text ↔ c.atom.text = a.text := by
    constructor
    · intro h
      have hatom : c.atom.mapInts m = a.mapInts m :=
        Term.eq_of_text_eq ((hg c hc).mapInts m) (ha.mapInts m) h
      rw [(Term.mapInts_inj hm).1 hatom]
    · intro h
      rw [Choice.mapInts, Term.eq_of_text_eq (hg c hc) ha h]
  have hget (j : Nat) : (g.mapInts m).choices[j]? = g.choices[j]?.map (Choice.mapInts m) :=
    List.getElem?_map
  refine Option.ext fun i => ?_
  simp only [named_eq_some_iff, hget, Option.map_eq_some_iff, forall_exists_index, and_imp,
    forall_apply_eq_imp_iff₂]
  constructor
  · rintro ⟨⟨_, ⟨c, hc, rfl⟩, ht⟩, hlater⟩
    refine ⟨⟨c, hc, (htext c (List.mem_of_getElem? hc)).1 ht⟩, fun j hj d hd he => ?_⟩
    exact hlater j hj d hd ((htext d (List.mem_of_getElem? hd)).2 he)
  · rintro ⟨⟨c, hc, ht⟩, hlater⟩
    refine ⟨⟨_, ⟨c, hc, rfl⟩, (htext c (List.mem_of_getElem? hc)).2 ht⟩, fun j hj d hd he => ?_⟩
    exact hlater j hj d hd ((htext d (List.mem_of_getElem? hd)).1 he)

/-! ## Moved declarations -/

variable [Probability α]

/-- Moving by a number is increasing. -/
theorem increasing_add (shift : Int) : Increasing fun n : Int => n + shift := by
  intro a b hab
  show a + shift < b + shift
  omega

/-- The event at another time. -/
def Event.moved (e : Event α) (shift : Int) : Event α := { e with time := e.time + shift }

/-- Declared facts that are moved are still in the default format and at times that fit. -/
theorem Event.forall_mem_moved {declarations : List (Event α)} {shift : Int}
    (hd : ∀ d ∈ declarations,
      d.template.Standard ∧ Time.Fits d.time ∧ Time.Fits (d.time + shift)) :
    ∀ d ∈ declarations.map (·.moved shift), d.template.Standard ∧ Time.Fits d.time := by
  intro e he
  obtain ⟨d, hdm, rfl⟩ := List.mem_map.1 he
  exact ⟨(hd d hdm).1, (hd d hdm).2.2⟩

/-- Facts that are the same are the same after a move. -/
theorem eraseDupsBy_moved (declarations : List (Event α)) (shift : Int) :
    (declarations.map (·.moved shift)).eraseDupsBy Event.sameFact =
      (declarations.eraseDupsBy Event.sameFact).map (·.moved shift) := by
  refine eraseDupsBy_map fun d _ e _ => ?_
  rw [Bool.eq_iff_iff]
  simp only [Event.sameFact, Bool.and_eq_true, beq_iff_eq]
  show d.identifier = e.identifier ∧ d.time + shift = e.time + shift ↔ _
  rw [Int.add_left_inj]

/-- Moved declarations set the same weights of the same nodes. -/
theorem Entry.settings_moved (shift : Int) {g : GroundProgram α}
    (hg : ∀ c ∈ g.choices, c.atom.Lexical) {declarations : List (Event α)}
    (hd : ∀ d ∈ declarations, d.template.Standard) (events : List (Event α)) :
    settings (declarations.map (·.moved shift)) events (g.mapInts (· + shift)).named 0 =
      settings declarations events g.named shift := by
  rw [settings, settings, eraseDupsBy_moved, List.filterMap_map]
  refine List.filterMap_congr fun d hdm => ?_
  have hlexical : d.atom.Lexical :=
    FactTemplate.lexical_atom (hd d (mem_of_mem_eraseDupsBy hdm)) d.time
  have hatom : (d.moved shift).atom = d.atom.mapInts (· + shift) := by
    simp only [Event.atom, FactTemplate.atom, Event.moved, Term.mapInts, Term.mapAllInts_eq_map,
      List.map_cons, List.map_nil]
  have hnamed := GroundProgram.named_mapInts (increasing_add shift) hg hlexical
  have htime : (d.moved shift).time + 0 = d.time + shift := Int.add_zero _
  rw [Function.comp_apply, hatom, hnamed, htime]
  rfl

/-! ## Compiled programs -/

/-- The program that is compiled for a query. -/
def Program.withQuery (p : Program α) (declarations : List (Event α)) (query : Query) : Program α :=
  ⟨p.clauses ++ declarations.map fun d => .chance 0 d.atom, p.queries ++ [query.atom]⟩

/-- The text that is compiled is read as the program, the declared facts and the query. -/
theorem ofText_programText {program : String} {p : Program α} (hp : Program.ofText program = .ok p)
    {declarations : List (Event α)} (hd : ∀ d ∈ declarations, d.template.Standard ∧ Time.Fits d.time)
    {query : Query} (hq : query.template.Writable) (ht : Time.Fits query.time) :
    Program.ofText (Entry.programText program declarations query) =
      .ok (p.withQuery declarations query) := by
  rw [programText_eq_factLines,
    ofText_factLines hp (plain_of_declared hd) (hq.lexical_atom query.time)
      (hq.isGround_atom query.time) (hq.fits_atom ht)]
  show Except.ok (⟨p.clauses ++ (_ ++ []), p.queries ++ [query.atom]⟩ : Program α) = _
  rw [List.append_nil, declared, List.map_map]
  rfl

/-- A program without integers is compiled for a query at another time as it is compiled for the query,
up to its times. -/
theorem Program.withQuery_moved {p : Program α} (hi : ∀ c ∈ p.clauses, c.integers = [])
    (hq : p.queries = []) (declarations : List (Event α)) {family : QueryTemplate}
    (hf : family.Timeless) (time shift : Int) :
    p.withQuery (declarations.map (·.moved shift)) ⟨family, time + shift⟩ =
      (p.withQuery declarations ⟨family, time⟩).mapInts (· + shift) := by
  have hclauses : p.clauses.map (Clause.mapInts (· + shift)) = p.clauses := by
    conv_rhs => rw [← List.map_id p.clauses]
    refine List.map_congr_left fun c hc => Clause.mapInts_eq_self fun n hn => ?_
    rw [hi c hc] at hn
    simp at hn
  have hquery : (Query.mk family time).atom.mapInts (· + shift) =
      (Query.mk family (time + shift)).atom := hf.atom_mapInts _ time
  have hatoms : (declarations.map (·.moved shift)).map (fun d => (.chance 0 d.atom : Clause α)) =
      (declarations.map fun d => .chance 0 d.atom).map (Clause.mapInts (· + shift)) := by
    rw [List.map_map, List.map_map]
    refine List.map_congr_left fun d _ => ?_
    simp only [Function.comp_apply, Clause.mapInts, Event.atom, FactTemplate.atom, Event.moved,
      Term.mapInts, Term.mapAllInts_eq_map, List.map_cons, List.map_nil]
  simp only [withQuery, mapInts, hq, List.nil_append, List.map_append, List.map_cons, List.map_nil,
    hclauses, hquery, hatoms]

/-- A program with one ground query has one query without variables. -/
theorem Program.queries_of_ground {p : Program α} {limit : Nat} {g : GroundProgram α}
    (h : (p.ground limit).outcome = .ok g) {q : Term} (hq : p.queries = [q])
    (hg : q.isGround = true) : g.queries.map (·.1) = [q] := by
  obtain ⟨-, possible, order, -, hto⟩ := groundsTo_of_ground h
  rw [hto.queries_eq, List.map_map, queryAtoms, hq]
  simp [hg, List.eraseDups_cons]

omit [Probability α] in
/-- Mapping integers maps the queries of a ground program. -/
theorem GroundProgram.queries_mapInts (g : GroundProgram α) :
    (g.mapInts m).queries.map (·.1) = (g.queries.map (·.1)).map (Term.mapInts m) := by
  rw [mapInts, List.map_map, List.map_map]
  rfl

omit [Probability α] in
/-- The results of one query are renamed with the query. -/
theorem rename_results (q q' : Term) (values : List α) :
    (Std.ExtTreeMap.ofList ([q].zip values) : Evaluation α).toList.map (fun r => (q', r.2)) =
      (Std.ExtTreeMap.ofList ([q'].zip values) : Evaluation α).toList.map (fun r => (q', r.2)) := by
  cases values <;> rfl

/-! ## Caches -/

/-- Over a ground program and the moved one, an entry and the entry with every declaration moved answer
alike at the time of the latter. -/
theorem Entry.answer_moved {p : Program α} (hp : p.Readable) {limit : Nat} {g : GroundProgram α}
    (hg : (p.ground limit).outcome = .ok g) {family : QueryTemplate} (hf : family.Timeless)
    {t₀ t : Int} (ht : Time.Fits t) (hshift : Time.Fits (t - t₀))
    (hq : g.queries.map (·.1) = [family.atom t₀]) (hp' : (p.mapInts (· + (t - t₀))).Readable)
    (hg' : ((p.mapInts (· + (t - t₀))).ground limit).outcome = .ok (g.mapInts (· + (t - t₀))))
    {k k' : Circuit α} {values : Weights α → List α} (hk : Engine.IsCircuitOf g values k)
    (hk' : Engine.IsCircuitOf (g.mapInts (· + (t - t₀))) values k') {declarations : List (Event α)}
    (hd : ∀ d ∈ declarations,
      d.template.Standard ∧ Time.Fits d.time ∧ Time.Fits (d.time + (t - t₀)))
    {events : List (Event α)} (he : ∀ e ∈ events, e.template.Standard) (program : String) :
    ∃ r, (ofCircuit program declarations ⟨family, t₀⟩ k).answer ⟨family, t⟩ events = .ok r ∧
      (ofCircuit program (declarations.map (·.moved (t - t₀))) ⟨family, t⟩ k').answer
        ⟨family, t⟩ events = .ok r := by
  have htime : t₀ + (t - t₀) = t := by omega
  have hsame : t - t = 0 := Int.sub_self t
  have hfits : Time.Fits (t - t) := by
    rw [hsame]
    decide
  have hq' : (g.mapInts (· + (t - t₀))).queries.map (·.1) = [family.atom t] := by
    rw [GroundProgram.queries_mapInts, hq, List.map_singleton, hf.atom_mapInts, htime]
  -- the results of either entry are about the query at the later time
  have hresult : ∀ q ∈ g.queries.map (·.1), family.translate q (t - t₀) = .ok (family.atom t) :=
    family.translate_of_mem_singleton hq htime ht
  have hresult' : ∀ q ∈ (g.mapInts (· + (t - t₀))).queries.map (·.1),
      family.translate q (t - t) = .ok (family.atom t) :=
    family.translate_of_mem_singleton hq' (by rw [hsame, Int.add_zero]) ht
  obtain ⟨w, hw, hanswer⟩ := exists_answer hp hg hk
    (fun d hdm => ⟨(hd d hdm).1, (hd d hdm).2.1⟩) he program ⟨family, t₀⟩ ⟨family, t⟩ hshift hresult
  obtain ⟨w', hw', hanswer'⟩ := exists_answer hp' hg' hk' (Event.forall_mem_moved hd) he program
    ⟨family, t⟩ ⟨family, t⟩ hfits hresult'
  -- both entries set the same weights
  have hlexical : ∀ choice ∈ g.choices, choice.atom.Lexical := fun choice hchoice =>
    (hp.clauses _ (Program.mem_chances_of_mem_choices hg hchoice)).2.lexical
  have hsettings := settings_moved (t - t₀) hlexical (fun d hdm => (hd d hdm).1) events
  have hbaseline : (g.mapInts (· + (t - t₀))).baseline = g.baseline := by
    rw [GroundProgram.baseline, GroundProgram.mapInts, List.map_map]
    rfl
  obtain rfl : w' = w := by
    rw [show (⟨family, t⟩ : Query).time - (⟨family, t⟩ : Query).time = 0 from hsame,
      hsettings, hbaseline] at hw'
    exact Except.ok.inj (hw'.symm.trans hw)
  refine ⟨_, hanswer, ?_⟩
  rw [hanswer', hq, hq', rename_results (family.atom t₀) (family.atom t)]

/-- What is asked at one time of a cache that is built for another time is what is asked of the cache that
is built for the time itself, with every declaration moved by the time between them. -/
theorem Cache.evaluate_moved (kind : EngineKind) (maxChoices atomLimit : Nat) (warnUnbound : Bool)
    {program : String} {p : Program α} (hp : Program.ofText program = .ok p)
    (hi : ∀ c ∈ p.clauses, c.integers = []) (hq : p.queries = []) {declarations : List (Event α)}
    (hd : ∀ d ∈ declarations, d.template.Standard) {family : QueryTemplate} (hf : family.Timeless)
    {t₀ t : Int} (h₀ : Time.Fits t₀) (ht : Time.Fits t) (hshift : Time.Fits (t - t₀))
    (hfits : ∀ d ∈ declarations, Time.Fits d.time ∧ Time.Fits (d.time + (t - t₀))) {c : Cache α}
    (hc : (build (.ofKind kind maxChoices atomLimit) warnUnbound declarations [⟨family, t₀⟩]
      program).outcome = .ok c) :
    ∃ c', (build (.ofKind kind maxChoices atomLimit) warnUnbound
        (declarations.map (·.moved (t - t₀))) [⟨family, t⟩] program).outcome = .ok c' ∧
      ∀ events : List (Event α), (∀ e ∈ events, e.template.Standard) →
        ∃ r, (c.evaluate [⟨family, t⟩] events false).outcome = .ok r ∧
          (c'.evaluate [⟨family, t⟩] events false).outcome = .ok r := by
  obtain ⟨p₀, g, k, hp₀, hg, hk, rfl⟩ := build_eq_ok_iff.1 hc
  have hread : Program.ofText (Entry.programText program declarations ⟨family, t₀⟩) =
      .ok (p.withQuery declarations ⟨family, t₀⟩) :=
    ofText_programText hp (fun d hdm => ⟨hd d hdm, (hfits d hdm).1⟩) hf.writable h₀
  obtain rfl : p.withQuery declarations ⟨family, t₀⟩ = p₀ := Except.ok.inj (hread.symm.trans hp₀)
  have hall := fun d hdm => And.intro (hd d hdm) (hfits d hdm)
  -- the program for the other time is the moved program
  have hp' : Program.ofText (Entry.programText program (declarations.map (·.moved (t - t₀)))
      ⟨family, t⟩) = .ok ((p.withQuery declarations ⟨family, t₀⟩).mapInts (· + (t - t₀))) := by
    rw [ofText_programText hp (Event.forall_mem_moved hall) hf.writable ht,
      ← Program.withQuery_moved hi hq declarations hf, show t₀ + (t - t₀) = t by omega]
  have hground := Program.ground_mapInts (increasing_add (t - t₀))
    (p.withQuery declarations ⟨family, t₀⟩) atomLimit
  rw [hg] at hground
  obtain ⟨g', hg', rfl⟩ := hground.exists_ok
  obtain ⟨k', values, hk', hanswers, hanswers'⟩ := Engine.circuit_sameShape (.mapInts _ g) hk
  have hqueries : g.queries.map (·.1) = [family.atom t₀] :=
    Program.queries_of_ground hg (by rw [Program.withQuery, hq]; rfl) (hf.writable.isGround_atom t₀)
  refine ⟨_, build_eq_ok_iff.2 ⟨_, _, k', hp', hg', hk', rfl⟩, fun events he => ?_⟩
  obtain ⟨r, hr, hr'⟩ := Entry.answer_moved (Program.readable_of_ofText hp₀) hg hf ht hshift hqueries
    (Program.readable_of_ofText hp') hg' hanswers hanswers' hall he program
  exact ⟨r, (outcome_evaluate _ _ rfl events).trans hr, (outcome_evaluate _ _ rfl events).trans hr'⟩

/-- A game that is won when a coin shows heads. -/
def game : Program Rat where
  clauses := [.rule ⟨.compound "win" [.var "T"], [⟨.compound "heads" [.var "T"], true⟩]⟩]
  queries := []

/-- Heads at a time. -/
def heads : FactTemplate := ⟨"heads", FactTemplate.defaultFormat⟩

/-- Whether the game is won at a time. -/
def win : QueryTemplate := ⟨"win", [], 0, none⟩

theorem standard_heads : heads.Standard :=
  ⟨rfl, 'h', "eads".toList, by decide, by decide, by decide⟩

theorem timeless_win : win.Timeless :=
  ⟨⟨'w', "in".toList, by decide, by decide, by decide⟩, by simp [win], by simp [win], by simp [win]⟩

/-- The coin at time 3. -/
def headsAtThree : List (Event Rat) := [.declaration heads 3]

/-- The cache for the game at time 3. -/
def gameCache : Except CacheError (Cache Rat) :=
  (Cache.build (.ofKind .diagrams 20 100) true headsAtThree [⟨win, 3⟩] "win(T) :- heads(T).").outcome

/-- The game has a cache, with an entry for its query. -/
theorem exists_gameEntry :
    ∃ (c : Cache Rat) (e : Entry Rat), gameCache = .ok c ∧ c.entries[win.identifier]? = some e := by
  have hok : (gameCache.toOption.map fun c => c.entries[win.identifier]?.isSome) = some true := by
    decide +kernel
  obtain ⟨c, hc, hentry⟩ := Option.map_eq_some_iff.1 hok
  obtain ⟨e, he⟩ := Option.isSome_iff_exists.1 hentry
  exact ⟨c, e, eq_ok_of_toOption hc, he⟩

theorem exists_gameCache : ∃ c, gameCache = .ok c := by
  obtain ⟨c, -, hc, -⟩ := exists_gameEntry
  exact ⟨c, hc⟩

/-- A cache for the game at time 3 answers at time 8 as the cache for time 8. -/
theorem Cache.evaluate_moved_game :
    ∃ c c' : Cache Rat, gameCache = .ok c ∧
      (build (.ofKind .diagrams 20 100) true (headsAtThree.map (·.moved (8 - 3))) [⟨win, 8⟩]
        "win(T) :- heads(T).").outcome = .ok c' ∧
      ∀ events : List (Event Rat), (∀ e ∈ events, e.template.Standard) →
        ∃ r, (c.evaluate [⟨win, 8⟩] events false).outcome = .ok r ∧
          (c'.evaluate [⟨win, 8⟩] events false).outcome = .ok r := by
  have hp : Program.ofText "win(T) :- heads(T)." = .ok game := by decide +kernel
  have hd : ∀ d ∈ headsAtThree, d.template.Standard := by
    intro d hd
    rw [List.mem_singleton.1 hd]
    exact standard_heads
  have hfits : ∀ d ∈ headsAtThree, Time.Fits d.time ∧ Time.Fits (d.time + (8 - 3)) := by
    intro d hd
    rw [List.mem_singleton.1 hd]
    decide
  have h₀ : Time.Fits 3 := by decide
  have h₁ : Time.Fits 8 := by decide
  have hshift : Time.Fits (8 - 3) := by decide
  obtain ⟨c, hc⟩ := exists_gameCache
  obtain ⟨c', hc', heval⟩ := evaluate_moved .diagrams 20 100 true hp (by decide) rfl hd timeless_win
    h₀ h₁ hshift hfits hc
  exact ⟨c, c', hc, hc', heval⟩

end TimedInference
