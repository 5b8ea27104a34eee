import TimedInference.Proofs.Cache.Answers
import TimedInference.Proofs.Cache.Tracked
import TimedInference.Proofs.Circuit.Names
import TimedInference.Proofs.Template.NodeNames

/-!
# Tracked declarations

A declaration is tracked when its text is bound by the name of a node, and reported as unbound when it is
not (`Binding.exists_tracked_iff`, `Binding.exists_unbound_iff`).  The nodes of a compiled entry are named by
the texts of relevant facts, so a declaration of a fact is tracked exactly when its text shows the name of
its atom and the atom is relevant (`Entry.names_alike`).  A text in which the same integer is spelled in
another way does not show the name: its declaration is not tracked, although its atom is relevant
(`Entry.names_differ_padded`).
-/

namespace TimedInference

open Syntax

/-! ## Bindings -/

/-- White space does not count in names. -/
theorem nodeName_congr {text text' : String} (h : Text.normalize text = Text.normalize text') :
    nodeName text = nodeName text' := by
  have hsqueezed : Text.squeeze text.toList = Text.squeeze text'.toList := String.ofList_injective h
  rw [nodeName, nodeName, hsqueezed]

variable {α : Type} [Probability α]

namespace Binding

variable {declarations : List (Event α)} {d : Event α} (hd : d ∈ declarations)
  (named : Std.ExtTreeMap String Nat)
include hd

/-- A declaration is kept up to white space. -/
theorem exists_mem_distinctMocks :
    ∃ m ∈ distinctMocks declarations, Text.normalize m = Text.normalize d.mock := by
  obtain ⟨m, hm, heq⟩ := exists_mem_eraseDupsBy
    (r := fun a b => Text.normalize a == Text.normalize b) (beq_self_eq_true _) (List.mem_map_of_mem hd)
  exact ⟨m, hm, (beq_iff_eq.1 heq).symm⟩

/-- A declaration is tracked exactly when its name is that of a node. -/
theorem exists_tracked_iff :
    (∃ fact ∈ (ofDeclarations declarations named).tracked, fact.key = Text.normalize d.mock) ↔
      nodeName d.mock ∈ named := by
  constructor
  · rintro ⟨fact, hfact, hkey⟩
    obtain ⟨-, hnormal, hnode⟩ := mem_tracked_iff.1 hfact
    rw [nodeName_congr (hkey.symm.trans hnormal), Std.ExtTreeMap.mem_iff_isSome_getElem?, hnode]
    rfl
  · intro hname
    obtain ⟨m, hm, heq⟩ := exists_mem_distinctMocks hd
    rw [← nodeName_congr heq, Std.ExtTreeMap.mem_iff_isSome_getElem?] at hname
    obtain ⟨node, hnode⟩ := Option.isSome_iff_exists.1 hname
    exact ⟨⟨m, Text.normalize m, node⟩, mem_tracked_iff.2 ⟨hm, rfl, hnode⟩, heq⟩

/-- A declaration is reported exactly when its name is not that of a node. -/
theorem exists_unbound_iff :
    (∃ m ∈ (ofDeclarations declarations named).unbound, Text.normalize m = Text.normalize d.mock) ↔
      nodeName d.mock ∉ named := by
  have hmem {m : String} : m ∈ (ofDeclarations declarations named).unbound ↔
      m ∈ distinctMocks declarations ∧ nodeName m ∉ named := by
    rw [ofDeclarations, List.mem_filter, Std.ExtTreeMap.mem_iff_isSome_getElem?, Option.isNone_iff_eq_none,
      Option.not_isSome_iff_eq_none]
  constructor
  · rintro ⟨m, hm, heq⟩
    rw [← nodeName_congr heq]
    exact (hmem.1 hm).2
  · intro hname
    obtain ⟨m, hm, heq⟩ := exists_mem_distinctMocks hd
    rw [← nodeName_congr heq] at hname
    exact ⟨m, hmem.2 ⟨hm, hname⟩, heq⟩

end Binding

/-! ## Facts of compiled programs -/

/-- What a statement writes is part of the program. -/
theorem Syntax.exists_count_of_mem {ss : List Statement} {s : Statement} (hs : s ∈ ss) (count : Nat) :
    ∃ count', ∀ c ∈ (s.value count' : Program α).clauses, c ∈ (programOf count ss : Program α).clauses := by
  obtain ⟨before, after, rfl⟩ := List.append_of_mem hs
  refine ⟨count + bareCount (before.flatMap Statement.tokens), fun c hc => ?_⟩
  rw [programOf_append, programOf, Program.clauses_append, Program.clauses_append]
  exact List.mem_append_right _ (List.mem_append_left _ hc)

/-- Each declaration stands on a line of its own. -/
theorem Entry.exists_toList_programText (program : String) {declarations : List (Event α)} (query : Query)
    {d : Event α} (hd : d ∈ declarations) :
    ∃ front back, (programText program declarations query).toList =
      front ++ '\n' :: (d.mock.toList ++ '\n' :: back) := by
  obtain ⟨before, after, rfl⟩ := List.append_of_mem hd
  obtain ⟨lines, last, hlines⟩ : ∃ lines last, program :: before.map Event.mock = lines ++ [last] :=
    ⟨_, _, (List.dropLast_append_getLast (List.cons_ne_nil _ _)).symm⟩
  have hall : program :: (before ++ d :: after).map Event.mock ++ [query.text] =
      lines ++ [last] ++ (d.mock :: (after.map Event.mock ++ [query.text])) := by
    rw [← hlines]
    simp
  refine ⟨lines.flatMap (fun l => l.toList ++ ['\n']) ++ last.toList,
    (after.map Event.mock ++ [query.text]).flatMap fun l => l.toList ++ ['\n'], ?_⟩
  rw [programText, toList_join_lines, hall]
  simp

/-- The program that is compiled declares the atoms of declarations that show their names. -/
theorem ShowsName.mem_chances {program : String} {declarations : List (Event α)} {query : Query}
    {p : Program α} (hp : Program.ofText (Entry.programText program declarations query) = .ok p)
    {d : Event α} (hd : d ∈ declarations) {a : Term} (h : ShowsName d.mock.toList a) :
    a ∈ p.chances.map (·.1) := by
  obtain ⟨front, back, weight, w, hw, rfl, -, -, hcanonical⟩ := h
  obtain ⟨ss, hwrites, hadmissible, rfl⟩ := Program.exists_writes_of_ofText hp
  obtain ⟨xs, ys, htext⟩ := Entry.exists_toList_programText program query hd
  have hlaid := hwrites.1
  rw [htext] at hlaid
  obtain ⟨weight', head, hm, hunplaced⟩ :=
    hw.exists_chance hwrites.2 (fun s hs => (hadmissible s hs).compound_head) hlaid
  obtain ⟨count, hcount⟩ := exists_count_of_mem (α := α) hm 0
  -- the head stands for the atom wherever it is written
  have hvalue : head.term.value count = w.value 0 := by
    have hwritten := hcanonical.written_value 0
    have hhead := WrittenTerm.canonical_of_unplaced (w.named_value 0) (hwritten.trans hunplaced.symm)
    apply Term.written_inj
    rw [hhead.written_value, hwritten, hunplaced]
  rw [← hvalue]
  refine List.mem_map.2 ⟨(head.term.value count, writtenProbability weight'), ?_, rfl⟩
  exact Program.mem_chances_iff.2 (hcount _ List.mem_cons_self)

/-- The atoms of probabilistic facts that are read from a text can be written out. -/
theorem Program.Printable.printable_of_mem_chances {p : Program α} (hp : p.Printable) {a : Term}
    (ha : a ∈ p.chances.map (·.1)) : a.Printable := by
  obtain ⟨d, hd, rfl⟩ := List.mem_map.1 ha
  exact (hp.clauses _ (mem_chances_iff.1 hd)).1.toPrintable

/-- A declared fact has a node exactly when its text shows the name of its atom and the atom is relevant. -/
theorem Circuit.NamesChoices.nodeName_mem_iff {c : Circuit α} {program : String}
    {declarations : List (Event α)} {query : Query} {p : Program α} {relevant : TermSet}
    (hc : c.NamesChoices p relevant)
    (hp : Program.ofText (Entry.programText program declarations query) = .ok p) {d : Event α}
    (hd : d ∈ declarations) {q : α} {a : Term} (ha : Program.ofText d.mock = .ok ⟨[.chance q a], []⟩) :
    nodeName d.mock ∈ c.named ↔ ShowsName d.mock.toList a ∧ a ∈ relevant := by
  constructor
  · intro hname
    obtain ⟨b, ⟨hrelevant, hb⟩, htext⟩ := hc.bijOn.surjOn hname
    have hprintable := (Program.printable_of_ofText hp).printable_of_mem_chances hb
    obtain ⟨rfl, hshows⟩ := showsName_of_nodeName_eq ha hprintable htext.symm
    exact ⟨hshows, hrelevant⟩
  · rintro ⟨hshows, hrelevant⟩
    rw [hshows.nodeName_eq]
    exact hc.bijOn.mapsTo ⟨hrelevant, hshows.mem_chances hp hd⟩

/-! ## Entries -/

namespace Entry

theorem exists_namesChoices_of_compile {kind : EngineKind} {maxChoices atomLimit : Nat} {warnUnbound : Bool}
    {program : String} {declarations : List (Event α)} {query : Query} {e : Entry α}
    (h : (compile (.ofKind kind maxChoices atomLimit) warnUnbound program declarations query).outcome =
      .ok e) :
    ∃ (p : Program α) (possible relevant : TermSet),
      Program.ofText (programText program declarations query) = .ok p ∧
        p.possible atomLimit = .ok possible ∧ p.NeedsExactly possible relevant ∧
        e.circuit.NamesChoices p relevant ∧
        e.tracked = (Binding.ofDeclarations declarations e.circuit.named).tracked ∧
        e.unbound = (Binding.ofDeclarations declarations e.circuit.named).unbound := by
  rw [outcome_compile, map_eq_ok] at h
  obtain ⟨c, hc, rfl⟩ := h
  obtain ⟨p, possible, relevant, hp, hpossible, hneeds, hnames⟩ :=
    Engine.exists_namesChoices_of_compile (mapError_eq_ok.1 hc)
  exact ⟨p, possible, relevant, hp, hpossible, hneeds, hnames, rfl, rfl⟩

/-- The text of a probabilistic fact is bound by the name of its atom exactly when it shows this name.  In a
compiled entry the declaration of such a fact is tracked, at the node of the atom, exactly when this is so
and the atom is relevant, and it is reported as unbound otherwise. -/
theorem names_alike (α : Type) [Probability α] :
    (∀ (t : FactTemplate) (time : Int) (q : α) (a : Term),
      Program.ofText (t.mock α time) = .ok ⟨[.chance q a], []⟩ →
        (nodeName (t.mock α time) = a.text ↔ ShowsName (t.mock α time).toList a)) ∧
      ∀ (kind : EngineKind) (maxChoices atomLimit : Nat) (warnUnbound : Bool) (program : String)
        (declarations : List (Event α)) (query : Query) (e : Entry α),
        (compile (.ofKind kind maxChoices atomLimit) warnUnbound program declarations query).outcome =
          .ok e →
        ∃ (p : Program α) (possible relevant : TermSet),
          Program.ofText (programText program declarations query) = .ok p ∧
            p.possible atomLimit = .ok possible ∧ p.NeedsExactly possible relevant ∧
            ∀ d ∈ declarations, ∀ (q : α) (a : Term), Program.ofText d.mock = .ok ⟨[.chance q a], []⟩ →
              ((∃ fact ∈ e.tracked, fact.key = Text.normalize d.mock) ↔
                ShowsName d.mock.toList a ∧ a ∈ relevant) ∧
              ((∃ m ∈ e.unbound, Text.normalize m = Text.normalize d.mock) ↔
                ¬ (ShowsName d.mock.toList a ∧ a ∈ relevant)) ∧
              ∀ fact ∈ e.tracked, fact.key = Text.normalize d.mock →
                e.circuit.named[a.text]? = some fact.node := by
  constructor
  · intro t time q a ha
    exact nodeName_eq_text_iff ha
  · intro kind maxChoices atomLimit warnUnbound program declarations query e h
    obtain ⟨p, possible, relevant, hp, hpossible, hneeds, hnames, htracked, hunbound⟩ :=
      exists_namesChoices_of_compile h
    refine ⟨p, possible, relevant, hp, hpossible, hneeds, fun d hd q a ha => ?_⟩
    have hiff := hnames.nodeName_mem_iff hp hd ha
    rw [htracked, hunbound, Binding.exists_tracked_iff hd, Binding.exists_unbound_iff hd, hiff]
    refine ⟨Iff.rfl, Iff.rfl, fun fact hfact hkey => ?_⟩
    obtain ⟨-, hnormal, hnode⟩ := Binding.mem_tracked_iff.1 hfact
    obtain ⟨hshows, -⟩ := hiff.1 ((Binding.exists_tracked_iff hd _).1 ⟨fact, hfact, hkey⟩)
    rw [← hshows.nodeName_eq, nodeName_congr (hkey.symm.trans hnormal)]
    exact hnode

/-- Heads, with white space around everything. -/
def spacedTime : FactTemplate :=
  ⟨"heads", Placeholder.braced "probability" ++ " ::\n" ++ Placeholder.braced "identifier" ++ "( " ++
    Placeholder.braced "timestamp" ++ " ) ."⟩

/-- The white space in the declaration of the coin does not count. -/
theorem names_alike_spacedTime :
    FactTemplate.withFormat "heads" spacedTime.format = .ok spacedTime ∧
      spacedTime.mock Rat 3 = "0 ::\nheads( 3 ) ." ∧
      Program.ofText (spacedTime.mock Rat 3) =
        .ok (α := Program Rat) ⟨[.chance 0 (.compound "heads" [.int 3])], []⟩ ∧
      ShowsName (spacedTime.mock Rat 3).toList (.compound "heads" [.int 3]) ∧
      ∃ e : Entry Rat, (compile (.ofKind .worlds 20 100) true "win(T) :- heads(T)."
          [.declaration spacedTime 3] ⟨win, 3⟩).outcome = .ok e ∧
        e.tracked = [⟨"0 ::\nheads( 3 ) .", "0::heads(3).", 0⟩] ∧
        ¬ (∃ m ∈ e.unbound, Text.normalize m = "0::heads(3).") ∧ e.circuit.named["heads(3)"]? = some 0 := by
  have hread : Program.ofText (spacedTime.mock Rat 3) =
      .ok (α := Program Rat) ⟨[.chance 0 (.compound "heads" [.int 3])], []⟩ := by decide +kernel
  have hcompiled : ((compile (.ofKind .worlds 20 100) true "win(T) :- heads(T)."
      [.declaration spacedTime 3] ⟨win, 3⟩).outcome.toOption.map fun e : Entry Rat => e.tracked) =
        some [⟨"0 ::\nheads( 3 ) .", "0::heads(3).", 0⟩] := by decide +kernel
  obtain ⟨hname, hentry⟩ := names_alike Rat
  obtain ⟨e, he, htracked⟩ := Option.map_eq_some_iff.1 hcompiled
  obtain ⟨p, possible, relevant, -, -, -, hdeclared⟩ := hentry _ _ _ _ _ _ _ e (eq_ok_of_toOption he)
  obtain ⟨htrackedIff, hunboundIff, hnode⟩ := hdeclared _ (List.mem_singleton_self _) 0 _ hread
  have hfact : (⟨"0 ::\nheads( 3 ) .", "0::heads(3).", 0⟩ : TrackedFact) ∈ e.tracked := by
    rw [htracked]
    exact List.mem_singleton_self _
  have hkey : "0::heads(3)." = Text.normalize (Event.declaration (α := Rat) spacedTime 3).mock := by
    decide +kernel
  have hrelevant := htrackedIff.1 ⟨_, hfact, hkey⟩
  refine ⟨by decide +kernel, by decide +kernel, hread, (hname _ _ _ _ hread).1 (by decide +kernel), e,
    eq_ok_of_toOption he, htracked, ?_, hnode _ hfact hkey⟩
  rw [hkey]
  exact fun h => hunboundIff.1 h hrelevant

/-- Heads, with a zero before the timestamp. -/
def paddedTime : FactTemplate :=
  ⟨"heads", Placeholder.braced "probability" ++ "::" ++ Placeholder.braced "identifier" ++ "(0" ++
    Placeholder.braced "timestamp" ++ ")."⟩

/-- The coin that is declared with a padded timestamp is the fact that the game needs, but the declaration has
another name and is reported as unbound. -/
theorem names_differ_padded :
    FactTemplate.withFormat "heads" paddedTime.format = .ok paddedTime ∧
      Program.ofText (paddedTime.mock Rat 3) =
        .ok (α := Program Rat) ⟨[.chance 0 (.compound "heads" [.int 3])], []⟩ ∧
      nodeName (paddedTime.mock Rat 3) = "heads(03)" ∧
      nodeName (paddedTime.mock Rat 3) ≠ (Term.compound "heads" [.int 3]).text ∧
      ∃ e : Entry Rat, (compile (.ofKind .worlds 20 100) true "win(T) :- heads(T)."
          [.declaration paddedTime 3] ⟨win, 3⟩).outcome = .ok e ∧
        e.circuit.named["heads(3)"]? = some 0 ∧ e.tracked = [] ∧ e.unbound = ["0::heads(03)."] := by
  have hcompiled : ((compile (.ofKind .worlds 20 100) true "win(T) :- heads(T)."
      [.declaration paddedTime 3] ⟨win, 3⟩).outcome.toOption.map fun e : Entry Rat =>
        (e.circuit.named["heads(3)"]?, e.tracked, e.unbound)) =
          some (some 0, [], ["0::heads(03)."]) := by decide +kernel
  obtain ⟨e, he, hbinding⟩ := Option.map_eq_some_iff.1 hcompiled
  simp only [Prod.mk.injEq] at hbinding
  exact ⟨by decide +kernel, by decide +kernel, by decide +kernel, by decide +kernel, e, eq_ok_of_toOption he,
    hbinding⟩

end Entry

end TimedInference
