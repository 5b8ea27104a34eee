import Mathlib.Data.Set.Card
import TimedInference.Number.Rational
import TimedInference.Proofs.Grounding.GroundProgram
import TimedInference.Syntax.Resolve

/-!
# The search for possible atoms ends

The search goes through rounds, and every round but the last adds an atom.  A round that adds something is
held to the limit, so the search ends after at most one round more than the limit allows
(`Rule.closure_settles`): with a set that a further round leaves as it is, or with a set that is too
large.  So it finds the least model of a program or refuses it (`Program.possible_settles`).  A least
model within the limit is never refused, and one beyond the limit always is, unless facts alone make it up.

The same holds of the programs that are grounded (`Program.ground_within_limit`), as long as their rules can
be joined (`Program.Searchable`).  A rule that begins with a variable can not, and then the least model may
have any number of atoms (`Program.ground_beyond_limit`).
-/

namespace TimedInference

variable {α : Type}

/-! ## Sizes -/

theorem TermSet.encard_eq_size (s : TermSet) : {a | a ∈ s}.encard = s.size := by
  have hs : {a | a ∈ s} = (s.toList.toFinset : Set Term) := by
    ext a
    rw [Finset.mem_coe, List.mem_toFinset, Std.ExtTreeSet.mem_toList]
    exact Iff.rfl
  rw [hs, Set.encard_coe_eq_coe_finsetCard, List.toFinset_card_of_nodup (TermSet.nodup_toList s),
    Std.ExtTreeSet.length_toList]

/-! ## Rounds -/

namespace Rule

/-- The atoms after a number of rounds. -/
def rounds (rules : List Rule) (n : Nat) (atoms : TermSet) : TermSet := (round rules)^[n] atoms

@[simp] theorem rounds_zero (rules : List Rule) (atoms : TermSet) : rounds rules 0 atoms = atoms :=
  rfl

/-- What every round keeps holds after any number of them. -/
theorem rounds_induction {rules : List Rule} {motive : TermSet → Prop}
    (step : ∀ atoms, motive atoms → motive (round rules atoms)) {atoms : TermSet}
    (start : motive atoms) (n : Nat) : motive (rounds rules n atoms) := by
  induction n generalizing atoms with
  | zero => exact start
  | succ n ih => exact ih (step atoms start)

/-- A round that does not enlarge a set leaves it as it is. -/
theorem round_eq_of_size_le {rules : List Rule} {atoms : TermSet}
    (h : (round rules atoms).size ≤ atoms.size) : round rules atoms = atoms := by
  ext a
  exact ⟨mem_of_size_le (fun b hb => mem_round.2 (.inl hb)) h, fun ha => mem_round.2 (.inl ha)⟩

/-- How a search ends after a number of rounds. -/
inductive Settles (rules : List Rule) (limit : Nat) (atoms : TermSet) (n : Nat) :
    Except EngineError TermSet → Prop
  /-- A further round adds nothing; the limit holds for a set that rounds have added to. -/
  | found (closed : round rules (rounds rules n atoms) = rounds rules n atoms)
    (within : 0 < n → (rounds rules n atoms).size ≤ limit) :
    Settles rules limit atoms n (.ok (rounds rules n atoms))
  /-- The limit is exceeded. -/
  | refused (beyond : limit < (rounds rules n atoms).size) :
    Settles rules limit atoms n (.error (.tooManyAtoms limit))

/-- A search that goes on after a round within the limit ends as the search from there. -/
theorem Settles.later {rules : List Rule} {limit : Nat} {atoms : TermSet} {n : Nat}
    {out : Except EngineError TermSet} (hsize : (round rules atoms).size ≤ limit)
    (h : Settles rules limit (round rules atoms) n out) : Settles rules limit atoms (n + 1) out := by
  cases h with
  | found closed within =>
    refine .found closed fun _ => ?_
    cases n with
    | zero => exact hsize
    | succ n => exact within n.succ_pos
  | refused beyond => exact .refused beyond

/-- Every search ends, after at most one round more than there is room for. -/
theorem closure_settles (rules : List Rule) (limit : Nat) (atoms : TermSet) :
    ∃ n ≤ limit - atoms.size + 1, Settles rules limit atoms n (closure rules limit atoms) := by
  induction atoms using closure.induct rules limit with
  | case1 atoms next hsize =>
    rw [closure, if_pos hsize]
    exact ⟨0, Nat.zero_le _, .found (round_eq_of_size_le hsize) fun h => absurd h (Nat.lt_irrefl 0)⟩
  | case2 atoms next hsize hlimit =>
    rw [closure, if_neg hsize, if_pos hlimit]
    exact ⟨1, Nat.le_add_left 1 _, .refused hlimit⟩
  | case3 atoms next hsize hlimit ih =>
    rw [closure, if_neg hsize, if_neg hlimit]
    obtain ⟨n, hn, hsettles⟩ := ih
    have hroom : limit - next.size + 1 ≤ limit - atoms.size := by omega
    exact ⟨n + 1, by omega, hsettles.later (Nat.le_of_not_lt hlimit)⟩

end Rule

/-! ## The least model -/

namespace Program

/-- The sets of atoms that hold every fact and, with the positive literals of a rule instance, its head. -/
structure Closed (p : Program α) (S : Set Term) : Prop where
  fact_mem : ∀ a ∈ p.factHeads, a ∈ S
  head_mem : ∀ r ∈ p.rules, ∀ σ, IsGrounding σ →
    (∀ l ∈ r.body, l.positive = true → l.atom.instantiate σ ∈ S) → r.head.instantiate σ ∈ S

/-- The derivable atoms. -/
def leastModel (p : Program α) : Set Term := {a | p.Derivable a}

theorem isLeast_leastModel (p : Program α) : IsLeast {S | p.Closed S} p.leastModel := by
  refine ⟨⟨fun a ha => .fact ha, fun r hr σ hσ hb => .rule hr hσ hb⟩, fun S hS a ha => ?_⟩
  induction ha with
  | fact h => exact hS.fact_mem _ h
  | rule hr hσ _ ih => exact hS.head_mem _ hr _ hσ ih

/-- The search for possible atoms, from the facts on. -/
theorem possible_settles (p : Program α) (limit : Nat) :
    ∃ n ≤ limit + 1, Rule.Settles p.rules limit (Std.ExtTreeSet.ofList p.factHeads) n
      (p.possible limit) := by
  obtain ⟨n, hn, h⟩ := Rule.closure_settles p.rules limit (Std.ExtTreeSet.ofList p.factHeads)
  exact ⟨n, by omega, h⟩

/-- All atoms that rounds add are in the least model. -/
theorem size_rounds_le {p : Program α} (hp : p.Safe) (n : Nat) :
    ((Rule.rounds p.rules n (Std.ExtTreeSet.ofList p.factHeads)).size : ℕ∞) ≤
      p.leastModel.encard := by
  rw [← TermSet.encard_eq_size]
  exact Set.encard_le_encard (Rule.rounds_induction
    (motive := fun s => ∀ a ∈ s, p.Derivable a) (fun _ hd => derivable_of_mem_round hp hd)
    derivable_of_mem_factHeads n)

theorem setOf_mem_possible_of_searchable {p : Program α} (hp : p.Safe) (hs : p.Searchable)
    {limit : Nat} {s : TermSet} (h : p.possible limit = .ok s) : {a | a ∈ s} = p.leastModel := by
  ext a
  exact mem_possible_iff_of_searchable hp hs h

theorem setOf_mem_possible {p : Program α} (hp : p.Safe) (hc : p.CompoundBodies) {limit : Nat}
    {s : TermSet} (h : p.possible limit = .ok s) : {a | a ∈ s} = p.leastModel :=
  setOf_mem_possible_of_searchable hp hc.searchable h

/-- A least model within the limit is found. -/
theorem exists_possible_of_encard_le {p : Program α} (hp : p.Safe) {limit : Nat}
    (h : p.leastModel.encard ≤ limit) : ∃ s, p.possible limit = .ok s := by
  obtain ⟨n, -, hsettles⟩ := p.possible_settles limit
  generalize p.possible limit = out at hsettles
  cases hsettles with
  | found closed within => exact ⟨_, rfl⟩
  | refused beyond =>
    have hle := (size_rounds_le hp n).trans h
    exact absurd beyond (Nat.not_lt_of_le (Nat.cast_le.1 hle))

/-- A least model beyond the limit is refused, unless it holds nothing but facts. -/
theorem possible_eq_error {p : Program α} (hp : p.Safe) (hc : p.CompoundBodies) {limit : Nat}
    (h : (limit : ℕ∞) < p.leastModel.encard) {a : Term} (ha : a ∈ p.leastModel)
    (hfact : a ∉ p.factHeads) : p.possible limit = .error (.tooManyAtoms limit) := by
  obtain ⟨n, -, hsettles⟩ := p.possible_settles limit
  generalize hout : p.possible limit = out at hsettles
  cases hsettles with
  | refused beyond => rfl
  | found closed within =>
    have hmodel := setOf_mem_possible hp hc hout
    rw [← hmodel, TermSet.encard_eq_size, Nat.cast_lt] at h
    cases n with
    | succ n => exact absurd h (Nat.not_lt_of_le (within n.succ_pos))
    | zero =>
      -- no round has added anything, so the atom is one of the facts
      rw [← hmodel] at ha
      exact absurd (by simpa using ha) hfact

/-- For a program that passes the check and whose positive literals are compounds, the search for possible
atoms ends with the least model or with a refusal.  It is never a refusal when the least model is within the
limit, and always one when it is not and holds more than the facts. -/
theorem possible_exact [Probability α] {p : Program α} (hcheck : p.check = .ok ())
    (hc : p.CompoundBodies) (limit : Nat) :
    IsLeast {S | p.Closed S} p.leastModel ∧
      (∃ n ≤ limit + 1, Rule.Settles p.rules limit (Std.ExtTreeSet.ofList p.factHeads) n
        (p.possible limit)) ∧
      (∀ s, p.possible limit = .ok s → {a | a ∈ s} = p.leastModel) ∧
      (p.leastModel.encard ≤ limit → ∃ s, p.possible limit = .ok s) ∧
      (limit < p.leastModel.encard → (∃ a ∈ p.leastModel, a ∉ p.factHeads) →
        p.possible limit = .error (.tooManyAtoms limit)) := by
  have hp := safe_of_check hcheck
  refine ⟨p.isLeast_leastModel, p.possible_settles limit, fun s hs => setOf_mem_possible hp hc hs,
    exists_possible_of_encard_le hp, ?_⟩
  rintro hbeyond ⟨a, ha, hfact⟩
  exact possible_eq_error hp hc hbeyond ha hfact

/-- The numbers that zero and its successors stand for. -/
def naturals : Program Rat where
  clauses := [.fact (.compound "n" [.atom "zero"]),
    .rule ⟨.compound "n" [.compound "s" [.var "X"]], [⟨.compound "n" [.var "X"], true⟩]⟩]
  queries := [.compound "n" [.atom "zero"]]

/-- There is a number for each round, and so more than the limit allows. -/
theorem possible_exact_naturals :
    naturals.check = .ok () ∧ naturals.CompoundBodies ∧ 3 < naturals.leastModel.encard ∧
      naturals.possible 3 = .error (.tooManyAtoms 3) := by
  have hcheck : naturals.check = .ok () := by decide
  have hbodies : naturals.CompoundBodies := by
    show ∀ r ∈ naturals.rules, ∀ l ∈ r.body, l.positive = true → l.atom.functor?.isSome = true
    decide
  have hsize : 3 < (Rule.rounds naturals.rules 3
      (Std.ExtTreeSet.ofList naturals.factHeads)).size := by decide +kernel
  have hbeyond : (3 : ℕ∞) < naturals.leastModel.encard :=
    lt_of_lt_of_le (Nat.cast_lt.2 hsize) (size_rounds_le (safe_of_check hcheck) 3)
  have hsuccessor : naturals.Derivable (.compound "n" [.compound "s" [.atom "zero"]]) := by
    refine .rule (r := ⟨.compound "n" [.compound "s" [.var "X"]],
      [⟨.compound "n" [.var "X"], true⟩]⟩) (σ := fun _ => .atom "zero") (by decide) (fun _ => rfl) ?_
    intro l hl _
    obtain rfl := List.mem_singleton.1 hl
    exact .fact (by decide)
  exact ⟨hcheck, hbodies, hbeyond,
    (possible_exact hcheck hbodies 3).2.2.2.2 hbeyond ⟨_, hsuccessor, by decide⟩⟩

/-! ## Ground programs -/

/-- The atoms that are found are within the limit, or are the facts. -/
theorem size_le_or_eq_facts {p : Program α} {limit : Nat} {s : TermSet}
    (h : p.possible limit = .ok s) : s.size ≤ limit ∨ s = Std.ExtTreeSet.ofList p.factHeads := by
  obtain ⟨n, -, hsettles⟩ := p.possible_settles limit
  rw [h] at hsettles
  cases hsettles with
  | found closed within =>
    cases n with
    | zero => exact .inr rfl
    | succ n => exact .inl (within n.succ_pos)

theorem setOf_mem_facts (p : Program α) :
    {a | a ∈ (Std.ExtTreeSet.ofList p.factHeads : TermSet)} = {a | a ∈ p.factHeads} := by
  ext a
  simp

/-- A program grounds only when its least model is within the limit or is made up of facts alone, which are
not held to the limit.  So the limit bounds the least model exactly when it bounds the facts. -/
theorem ground_within_limit [Probability α] {p : Program α} {limit : Nat} {g : GroundProgram α}
    (hg : (p.ground limit).outcome = .ok g) (hs : p.Searchable) :
    (p.leastModel.encard ≤ limit ∨ p.leastModel = {a | a ∈ p.factHeads}) ∧
      (p.leastModel.encard ≤ limit ↔ {a | a ∈ p.factHeads}.encard ≤ limit) := by
  obtain ⟨hcheck, s, hpossible, -⟩ := ground_eq_ok_iff.1 hg
  have hmodel := setOf_mem_possible_of_searchable (safe_of_check hcheck) hs hpossible
  have hbound : p.leastModel.encard ≤ limit ∨ p.leastModel = {a | a ∈ p.factHeads} := by
    rw [← hmodel, TermSet.encard_eq_size, Nat.cast_le]
    refine (size_le_or_eq_facts hpossible).imp_right fun hfacts => ?_
    rw [hfacts, setOf_mem_facts]
  refine ⟨hbound, fun hle => ?_, fun hle => ?_⟩
  · have hsub : {a | a ∈ p.factHeads} ⊆ p.leastModel := fun a ha => .fact ha
    exact (Set.encard_le_encard hsub).trans hle
  · rcases hbound with hwithin | hfacts
    · exact hwithin
    · rwa [hfacts]

/-- What is said by someone who is trusted is known. -/
def reports : Program Rat where
  clauses := [.fact (.atom "rain"), .chance (mkRat 1 2) (.compound "trusted" [.atom "rain"]),
    .rule ⟨.compound "known" [.var "X"], [⟨.compound "trusted" [.var "X"], true⟩, ⟨.var "X", true⟩]⟩]
  queries := [.compound "known" [.atom "rain"]]

/-- What it says without variables. -/
def groundReports : GroundProgram Rat where
  choices := [⟨.compound "trusted" [.atom "rain"], mkRat 1 2⟩]
  atoms := [⟨.compound "trusted" [.atom "rain"], false, [0], []⟩, ⟨.atom "rain", true, [], []⟩,
    ⟨.compound "known" [.atom "rain"], false, [], [[⟨0, true⟩, ⟨1, true⟩]]⟩]
  queries := [(.compound "known" [.atom "rain"], some 2)]

/-- Two facts and an atom that follows from them are within a limit of three. -/
theorem ground_within_limit_reports :
    (reports.ground 3).outcome = .ok groundReports ∧ reports.Searchable ∧
      reports.leastModel.encard ≤ 3 := by
  have hg : (reports.ground 3).outcome = .ok groundReports := by decide +kernel
  have hs : reports.Searchable := ⟨by decide, .inl (by decide)⟩
  refine ⟨hg, hs, (ground_within_limit hg hs).2.2 ?_⟩
  rw [← setOf_mem_facts, TermSet.encard_eq_size]
  exact Nat.cast_le.2 (by decide +kernel)

/-- Two facts. -/
def twoFactsText : String := "a. b. query(a)."

/-- What the text says. -/
def twoFacts : Program Rat := ⟨[.fact (.atom "a"), .fact (.atom "b")], [.atom "a"]⟩

/-- A rule that begins with a bare variable, which is looked up before anything binds it. -/
def endlessText : String := "a. b(X) :- X. query(a)."

/-- What this text says. -/
def endless : Program Rat :=
  ⟨[.fact (.atom "a"), .rule ⟨.compound "b" [.var "X"], [⟨.var "X", true⟩]⟩], [.atom "a"]⟩

/-- What both texts say without variables. -/
def groundFact : GroundProgram Rat := ⟨[], [⟨.atom "a", true, [], []⟩], [(.atom "a", some 0)]⟩

/-- Two texts that ground within a limit of one atom, although more than one atom is derivable: in the first
one they are facts, in the second one the search misses them. -/
theorem ground_beyond_limit :
    (ofText twoFactsText : Except EngineError (Program Rat)) = .ok twoFacts ∧
      (twoFacts.ground 1).outcome = .ok groundFact ∧ 1 < twoFacts.leastModel.encard ∧
      (ofText endlessText : Except EngineError (Program Rat)) = .ok endless ∧
      (endless.ground 1).outcome = .ok groundFact ∧ 1 < endless.leastModel.encard := by
  refine ⟨by decide +kernel, by decide +kernel, ?_, by decide +kernel, by decide +kernel, ?_⟩
  · refine Set.one_lt_encard_iff.2 ⟨.atom "a", .atom "b", .fact (by decide), .fact (by decide), ?_⟩
    decide
  · have ha : endless.Derivable (.atom "a") := .fact (by decide)
    refine Set.one_lt_encard_iff.2 ⟨.atom "a", .compound "b" [.atom "a"], ha, ?_, by decide⟩
    refine .rule (r := ⟨.compound "b" [.var "X"], [⟨.var "X", true⟩]⟩) (σ := fun _ => .atom "a")
      (by decide) (fun _ => rfl) fun l hl _ => ?_
    obtain rfl := List.mem_singleton.1 hl
    exact ha

end Program

end TimedInference
