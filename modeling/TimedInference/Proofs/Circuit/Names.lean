import Mathlib.Data.Set.Function
import TimedInference.Circuit.Evaluation
import TimedInference.Number.Rational
import TimedInference.Proofs.Circuit.Shape
import TimedInference.Proofs.Grounding.Names
import TimedInference.Proofs.Grounding.Relevance
import TimedInference.Proofs.Template.Texts

/-!
# Names identify facts

Terms whose names have the forms of the grammar are known by their texts, and texts hold no other atoms.  So
the names of a compiled circuit are the texts of the relevant probabilistic facts, one for each of them, and
each name leads to the last declaration of its fact (`Circuit.NamesChoices`).  An evaluation is asked by such
texts as well, with or without white space in them (`Evaluation.probabilityOf_eq`).  Together this is
`Engine.names_identify_facts`.
-/

namespace TimedInference

variable {α : Type}

/-! ## White space -/

/-- The second text is the first one with white space put in. -/
inductive Text.Widened : List Char → List Char → Prop where
  | nil : Widened [] []
  | keep (c : Char) {cs ds : List Char} (h : Widened cs ds) : Widened (c :: cs) (c :: ds)
  | blank {c : Char} (hc : isBlank c = true) {cs ds : List Char} (h : Widened cs ds) :
      Widened cs (c :: ds)

/-- Without white space, a widened text is what it was. -/
theorem Text.Widened.squeeze_eq {cs ds : List Char} (h : Widened cs ds) : squeeze ds = squeeze cs := by
  induction h with
  | nil => rfl
  | keep c _ ih => rw [squeeze, List.filter_cons, squeeze, List.filter_cons, ← squeeze, ← squeeze, ih]
  | blank hc _ ih =>
    rw [squeeze, List.filter_cons_of_neg (by simp [hc]), ← squeeze, ih]

/-- The text of a term is what is left of it when the white space put into it is removed. -/
theorem Term.Lexical.normalize_eq {t : Term} (h : t.Lexical) {text : String}
    (hw : Text.Widened t.text.toList text.toList) : Text.normalize text = t.text := by
  rw [Text.normalize, hw.squeeze_eq, Text.squeeze_eq_self h.not_blank, String.ofList_toList]

/-! ## Evaluations -/

/-- An evaluation is asked by the texts of its atoms, in which white space does not count. -/
theorem Evaluation.probabilityOf_eq {e : Evaluation α} (he : ∀ k ∈ e, k.Lexical) {k : Term} (hk : k ∈ e)
    {text : String} (hw : Text.Widened k.text.toList text.toList) : e.probabilityOf text = e[k]? := by
  rw [probabilityOf, (he k hk).normalize_eq hw]
  cases hfind : e.toList.find? fun r => r.1.text == k.text with
  | none =>
    -- the atom itself has this text
    rw [List.find?_eq_none] at hfind
    have hmem : (k, e[k]) ∈ e.toList := Std.ExtTreeMap.mem_toList_iff_getElem?_eq_some.2 (by simp)
    exact absurd (beq_self_eq_true k.text) (hfind _ hmem)
  | some r =>
    have hr := Std.ExtTreeMap.mem_toList_iff_getElem?_eq_some.1 (List.mem_of_find?_eq_some hfind)
    have hmem : r.1 ∈ e := by
      rw [Std.ExtTreeMap.mem_iff_isSome_getElem?, hr]
      rfl
    have htext : r.1.text = k.text := by simpa using List.find?_some hfind
    obtain rfl := Term.eq_of_text_eq (he r.1 hmem) (he k hk) htext
    rw [hr]
    rfl

/-! ## Circuits -/

/-- The atoms of a set are those that the possible queried atoms depend on, these included. -/
def Program.NeedsExactly (p : Program α) (possible relevant : TermSet) : Prop :=
  ∀ a, a ∈ relevant ↔
    ∃ q ∈ p.queryAtoms possible, q ∈ possible ∧ Relation.ReflTransGen (p.DependsOn possible) q a

/-- The number is that of the last choice that declares the atom. -/
def IsLastChoice (choices : List (Choice α)) (a : Term) (i : Nat) : Prop :=
  (∃ weight, choices[i]? = some ⟨a, weight⟩) ∧ ∀ j > i, ∀ d, choices[j]? = some d → d.atom ≠ a

/-- A text of the form of the grammar names the last choice of its atom. -/
theorem GroundProgram.named_text_iff {g : GroundProgram α} (hg : ∀ d ∈ g.choices, d.atom.Lexical)
    {a : Term} (ha : a.Lexical) {i : Nat} :
    g.named[a.text]? = some i ↔ IsLastChoice g.choices a i := by
  have hatom {j : Nat} {d : Choice α} (hd : g.choices[j]? = some d) : d.atom.text = a.text ↔ d.atom = a :=
    ⟨Term.eq_of_text_eq (hg d (List.mem_of_getElem? hd)) ha, congrArg Term.text⟩
  rw [named_eq_some_iff]
  constructor
  · rintro ⟨⟨d, hd, htext⟩, hlater⟩
    obtain rfl := (hatom hd).1 htext
    exact ⟨⟨d.probability, hd⟩, fun j hj d' hd' he => hlater j hj d' hd' ((hatom hd').2 he)⟩
  · rintro ⟨⟨weight, hd⟩, hlater⟩
    exact ⟨⟨_, hd, rfl⟩, fun j hj d' hd' he => hlater j hj d' hd' ((hatom hd').1 he)⟩

/-- The names of a circuit are the texts of the relevant probabilistic facts of a program, each leads to the
last declaration of its fact, and the nodes have the probabilities that the relevant facts are declared
with. -/
structure Circuit.NamesChoices [Probability α] (c : Circuit α) (p : Program α) (relevant : TermSet) :
    Prop where
  bijOn : Set.BijOn Term.text {a | a ∈ relevant ∧ a ∈ p.chances.map (·.1)} {name | name ∈ c.named}
  named_iff : ∀ a ∈ p.chances.map (·.1), ∀ i, c.named[a.text]? = some i ↔
    IsLastChoice (p.relevantChoices relevant) a i
  baseline_eq : c.baseline = .ofList ((p.relevantChoices relevant).map (·.probability))

/-- An atom has a choice when it is relevant and probabilistic. -/
theorem Program.mem_relevantChoices_iff {p : Program α} {relevant : TermSet} {a : Term} :
    (∃ d ∈ p.relevantChoices relevant, d.atom = a) ↔ a ∈ relevant ∧ a ∈ p.chances.map (·.1) := by
  simp only [relevantChoices, List.mem_map, List.mem_filter, ← Std.ExtTreeSet.mem_iff_contains]
  constructor
  · rintro ⟨_, ⟨d, ⟨hd, hrelevant⟩, rfl⟩, rfl⟩
    exact ⟨hrelevant, d, hd, rfl⟩
  · rintro ⟨hrelevant, d, hd, rfl⟩
    exact ⟨_, ⟨d, ⟨hd, hrelevant⟩, rfl⟩, rfl⟩

/-- The atoms of probabilistic facts that are read from a text have names of the forms of the grammar. -/
theorem Program.Readable.lexical_of_mem_chances [Probability α] {p : Program α} (hp : p.Readable)
    {a : Term} (ha : a ∈ p.chances.map (·.1)) : a.Lexical := by
  obtain ⟨d, hd, rfl⟩ := List.mem_map.1 ha
  exact (hp.clauses _ (mem_chances_iff.1 hd)).2.lexical

variable [Probability α]

/-- The names of a circuit are the texts of the relevant probabilistic facts, each for its last
choice. -/
theorem GroundProgram.namesChoices {g : GroundProgram α} {p : Program α} (hp : p.Readable)
    {relevant : TermSet} (hg : g.choices = p.relevantChoices relevant) {values : Weights α → List α}
    {c : Circuit α} (hc : Engine.IsCircuitOf g values c) : c.NamesChoices p relevant := by
  have hlexical : ∀ d ∈ g.choices, d.atom.Lexical := by
    intro d hd
    rw [hg] at hd
    exact hp.lexical_of_mem_chances (Program.mem_relevantChoices_iff.1 ⟨d, hd, rfl⟩).2
  have hnamed {name : String} : name ∈ c.named ↔ ∃ d ∈ g.choices, d.atom.text = name := by
    rw [hc.named_eq]
    exact GroundProgram.mem_named_iff
  refine ⟨⟨?_, ?_, ?_⟩, ?_, ?_⟩
  · intro a ha
    obtain ⟨d, hd, rfl⟩ := Program.mem_relevantChoices_iff.2 ha
    exact hnamed.2 ⟨d, hg.symm ▸ hd, rfl⟩
  · intro a ha b hb htext
    exact Term.eq_of_text_eq (hp.lexical_of_mem_chances ha.2) (hp.lexical_of_mem_chances hb.2) htext
  · intro name hname
    obtain ⟨d, hd, rfl⟩ := hnamed.1 hname
    rw [hg] at hd
    exact ⟨d.atom, Program.mem_relevantChoices_iff.1 ⟨d, hd, rfl⟩, rfl⟩
  · intro a ha i
    rw [hc.named_eq, ← hg]
    exact GroundProgram.named_text_iff hlexical (hp.lexical_of_mem_chances ha)
  · rw [hc.baseline_eq, ← hg]
    rfl

/-- A circuit that is compiled from a text names its choices by the relevant probabilistic facts. -/
theorem Engine.exists_namesChoices_of_compile {kind : EngineKind} {maxChoices atomLimit : Nat}
    {text : String} {c : Circuit α}
    (h : ((ofKind kind maxChoices atomLimit).compile text).outcome = .ok c) :
    ∃ (p : Program α) (possible relevant : TermSet), Program.ofText text = .ok p ∧
      p.possible atomLimit = .ok possible ∧ p.NeedsExactly possible relevant ∧
      c.NamesChoices p relevant := by
  rw [outcome_compile] at h
  obtain ⟨p, hp, h⟩ := bind_eq_ok.1 h
  obtain ⟨g, hg, hc⟩ := bind_eq_ok.1 h
  obtain ⟨hcheck, possible, hpossible, hover⟩ := Program.ground_eq_ok_iff.1 hg
  have hsafe := Program.safe_of_check hcheck
  have hground := Program.groundAtoms_of_derivable hsafe (Program.derivable_of_mem_possible hsafe hpossible)
  simp only [Program.groundOver] at hover
  obtain ⟨order, -, hover⟩ := bind_eq_ok.1 hover
  obtain rfl := Except.ok.inj hover
  refine ⟨p, possible, _, hp, hpossible, fun a => Program.mem_relevant_iff hground, ?_⟩
  exact GroundProgram.namesChoices (Program.readable_of_ofText hp) rfl (isCircuitOf_values hc)

/-- Terms whose names have the forms of the grammar are known by their texts.  The names of a compiled circuit
are the texts of the probabilistic facts that the queries depend on, each of which leads to the last declaration
of its fact, and evaluations are asked by texts in which white space does not count. -/
theorem Engine.names_identify_facts (α : Type) [Probability α] :
    (∀ t u : Term, t.Lexical → u.Lexical → t.text = u.text → t = u) ∧
      (∀ (kind : EngineKind) (maxChoices atomLimit : Nat) (text : String) (c : Circuit α),
        ((ofKind kind maxChoices atomLimit).compile text).outcome = .ok c →
          ∃ (p : Program α) (possible relevant : TermSet), Program.ofText text = .ok p ∧
            p.possible atomLimit = .ok possible ∧ p.NeedsExactly possible relevant ∧
            c.NamesChoices p relevant) ∧
      ∀ e : Evaluation α, (∀ k ∈ e, k.Lexical) → ∀ k ∈ e, ∀ text : String,
        Text.Widened k.text.toList text.toList → e.probabilityOf text = e[k]? := by
  refine ⟨fun t u => Term.eq_of_text_eq, ?_, ?_⟩
  · intro kind maxChoices atomLimit text c h
    exact exists_namesChoices_of_compile h
  · intro e he k hk text hw
    exact Evaluation.probabilityOf_eq he hk hw

/-- Heads are declared twice, and tails although nothing needs them. -/
def headsTwice : Program Rat where
  clauses := [.chance (mkRat 1 2) (.compound "heads" [.int 3]),
    .chance (mkRat 1 4) (.compound "heads" [.int 3]), .chance (mkRat 1 2) (.compound "tails" [.int 3]),
    .rule ⟨.atom "win", [⟨.compound "heads" [.int 3], true⟩]⟩]
  queries := [.atom "win"]

/-- Of the ground program only the declarations of heads are choices. -/
def groundHeadsTwice : GroundProgram Rat where
  choices := [⟨.compound "heads" [.int 3], mkRat 1 2⟩, ⟨.compound "heads" [.int 3], mkRat 1 4⟩]
  atoms := [⟨.compound "heads" [.int 3], false, [0, 1], []⟩, ⟨.atom "win", false, [], [[⟨0, true⟩]]⟩]
  queries := [(.atom "win", some 1)]

theorem Engine.names_identify_facts_headsTwice :
    (Term.compound "heads" [.int 3]).text ≠ (Term.compound "heads" [.int (-3)]).text ∧
      ((ofKind .diagrams 20 100).compile
        "0.5::heads(3). 0.25::heads(3). 0.5::tails(3). win :- heads(3). query(win).").outcome =
          .ok (DiagramCircuit.compile groundHeadsTwice).toCircuit ∧
      (DiagramCircuit.compile groundHeadsTwice).toCircuit.named.toList = [("heads(3)", 1)] ∧
      (∃ relevant, (DiagramCircuit.compile groundHeadsTwice).toCircuit.NamesChoices headsTwice relevant) ∧
      ∀ value : Rat, Evaluation.probabilityOf (Std.ExtTreeMap.ofList
        [(Term.compound "heads" [.int 3], value)]) " heads( 3 )" = some value := by
  obtain ⟨htext, hnames, hvalue⟩ := names_identify_facts Rat
  have hlexical (n : Int) : (Term.compound "heads" [.int n]).Lexical :=
    ⟨⟨'h', "eads".toList, rfl, by decide, by decide⟩, trivial, trivial⟩
  have hp : (Program.ofText
      "0.5::heads(3). 0.25::heads(3). 0.5::tails(3). win :- heads(3). query(win)." :
        Except EngineError (Program Rat)) = .ok headsTwice := by decide +kernel
  have hg : (headsTwice.ground 100).outcome = .ok groundHeadsTwice := by decide +kernel
  have hc : ((ofKind .diagrams 20 100).compile
      "0.5::heads(3). 0.25::heads(3). 0.5::tails(3). win :- heads(3). query(win).").outcome =
        .ok (DiagramCircuit.compile groundHeadsTwice).toCircuit := by
    rw [outcome_compile, hp]
    show (headsTwice.ground 100).outcome >>= circuit .diagrams 20 = _
    rw [hg]
    rfl
  refine ⟨?_, hc, by decide +kernel, ?_, ?_⟩
  · intro h
    exact absurd (htext _ _ (hlexical 3) (hlexical (-3)) h) (by decide)
  · obtain ⟨p, possible, relevant, hp', -, -, hchoices⟩ := hnames _ _ _ _ _ hc
    obtain rfl := Except.ok.inj (hp.symm.trans hp')
    exact ⟨relevant, hchoices⟩
  · intro value
    have hkeys : ∀ k : Term, k ∈ Std.ExtTreeMap.ofList [(Term.compound "heads" [.int 3], value)] →
        k.Lexical := by
      intro k hk
      have hcompare : compare (Term.compound "heads" [.int 3]) k = .eq := by simpa [eq_comm] using hk
      obtain rfl := Std.compare_eq_iff_eq.1 hcompare
      exact hlexical 3
    have hwidened : Text.Widened "heads(3)".toList " heads( 3 )".toList :=
      .blank (by decide) (.keep _ (.keep _ (.keep _ (.keep _ (.keep _ (.keep _ (.blank (by decide)
        (.keep _ (.blank (by decide) (.keep _ .nil))))))))))
    rw [hvalue _ hkeys (.compound "heads" [.int 3]) (by simp) _ hwidened]
    simp

end TimedInference
