import TimedInference.Proofs.Syntax.Meaning
import TimedInference.Proofs.Template.Families

/-!
# Programs written out

The clauses and queries of a program can be written out one after another (`Program.text`).  What is read from
a text can be written out and read again (`Clause.Printable`): heads are atoms that are not read as queries,
bodies have literals, and no variable is a bare underscore, because each of these has got a name.  The text of
such a clause is a layout of one statement (`Clause.tight_text`) that stands for this clause
(`Clause.value_statement`), so the program that is written out is read again (`Program.ofText_text`).
-/

namespace TimedInference

open Syntax Syntax.Resolving

/-! ## Terms -/

/-- A term that is read from its text: texts can hold it, and no variable is a bare underscore. -/
structure Term.Printable (t : Term) : Prop extends t.Readable where
  named : ∀ x ∈ t.occurrences, x ≠ "_"

/-- An atom that can be the head of a clause. -/
structure Term.IsHead (t : Term) : Prop extends t.Printable where
  isCompound : ∃ f ts, t = .compound f ts

namespace Term

/-- Such a term is what its written form stands for. -/
theorem Printable.value_written {t : Term} (h : t.Printable) (count : Nat) :
    t.written.Fits ∧ t.written.value count = t ∧ bareCount t.written.tokens = 0 := by
  have hv := value?_written h.named h.fits count
  rw [WrittenTerm.value?_resolve_eq_some_iff h.lexical.written, Prod.mk.injEq] at hv
  obtain ⟨hfits, hvalue, hcount⟩ := hv
  refine ⟨hfits, hvalue, ?_⟩
  omega

/-- A head is written as a compound. -/
theorem IsHead.written {t : Term} (h : t.IsHead) : ∃ f ts, t.written = .compound f ts := by
  obtain ⟨f, ts, rfl⟩ := h.isCompound
  exact ⟨f, writtenAll ts, rfl⟩

end Term

namespace Syntax

/-- What holds of the value of every member of a list, wherever it stands, holds of the values of the list. -/
theorem forall_mem_numbered {τ β : Type} {value : Nat → τ → β} {tokens : τ → List Token} {P : β → Prop}
    {as : List τ} (h : ∀ a ∈ as, ∀ count, P (value count a)) (count : Nat) :
    ∀ b ∈ numbered value tokens count as, P b := by
  induction as generalizing count with
  | nil => simp [numbered]
  | cons a as ih =>
    rw [List.forall_mem_cons] at h
    rw [numbered, List.forall_mem_cons]
    exact ⟨h.1 count, ih h.2 _⟩

namespace WrittenTerm

/-- The variables of what is read have names, since underscores get some. -/
theorem named_value (t : WrittenTerm) (count : Nat) : ∀ x ∈ (t.value count).occurrences, x ≠ "_" := by
  induction t generalizing count with
  | var x =>
    rw [value]
    split
    · -- an anonymous variable has a name of at least two characters
      intro y hy
      obtain rfl : y = "_G" ++ toString (count + 1) := by simpa [Term.occurrences] using hy
      intro h
      have hlist := congrArg String.toList h
      rw [String.toList_append] at hlist
      exact absurd hlist (by simp)
    · rename_i hx
      intro y hy
      obtain rfl : y = x := by simpa [Term.occurrences] using hy
      exact hx
  | integer o negative ds => simp [value, Term.occurrences]
  | compound f ts ih =>
    rw [value, valueAll_eq_numbered, Term.occurrences, Term.allOccurrences_eq_flatMap]
    intro x hx
    obtain ⟨t, ht, hx⟩ := List.mem_flatMap.1 hx
    exact forall_mem_numbered (P := fun t => ∀ x ∈ t.occurrences, x ≠ "_") ih count t ht x hx

/-- What a written term stands for can be written out. -/
theorem printable_value {t : WrittenTerm} (ht : t.Lexical) (hf : t.Fits) (count : Nat) :
    (t.value count).Printable :=
  { readable_of_value? ht ((value?_resolve_eq_some_iff ht count _).2 ⟨hf, rfl⟩) with
    named := named_value t count }

/-- A written term is read as a query when the term that it stands for is. -/
theorem isQuery_written_value (t : WrittenTerm) (count : Nat) :
    Statement.IsQuery (t.value count).written ↔ Statement.IsQuery t := by
  cases t with
  | var x =>
    rw [value]
    split <;> exact Iff.rfl
  | integer o negative ds => exact Iff.rfl
  | compound f ts =>
    rcases ts with _ | ⟨t, _ | ⟨u, ts⟩⟩ <;> exact Iff.rfl

end WrittenTerm

/-- What is read as a head is one. -/
theorem WrittenHead.isHead_value {h : WrittenHead} (hl : h.term.Lexical)
    (hh : (∃ f ts, h.term = .compound f ts) ∧ h.term.Fits) (count : Nat) :
    (h.term.value count).IsHead := by
  obtain ⟨⟨f, ts, hterm⟩, hfits⟩ := hh
  refine { WrittenTerm.printable_value hl hfits count with
    isCompound := ⟨f, WrittenTerm.valueAll count ts, ?_⟩ }
  rw [hterm, WrittenTerm.value]

/-- The alternatives of a formula can be written out as bodies. -/
def Formula.Printable (f : Formula Term) : Prop :=
  ∀ body ∈ f.alternatives, body ≠ [] ∧ ∀ l ∈ body, l.atom.Printable

/-- So can those of a conjunction, if those of its parts can and it has parts. -/
theorem Formula.printable_every {fs : List (Formula Term)} (hne : fs ≠ [])
    (h : ∀ f ∈ fs, f.Printable) : (every fs).Printable := by
  intro body hbody
  refine ⟨?_, forall_atoms_every (fun f hf body hbody => (h f hf body hbody).2) body hbody⟩
  -- the literals of the first part come first
  obtain ⟨f, fs, rfl⟩ := List.exists_cons_of_ne_nil hne
  rw [alternatives, combinations, List.mem_flatMap] at hbody
  obtain ⟨first, hfirst, hbody⟩ := hbody
  obtain ⟨rest, -, rfl⟩ := List.mem_map.1 hbody
  exact List.append_ne_nil_of_left_ne_nil (h f List.mem_cons_self first hfirst).1 rest

theorem Formula.printable_some {fs : List (Formula Term)} (h : ∀ f ∈ fs, f.Printable) :
    (some fs).Printable := by
  rw [Printable, alternatives]
  induction fs with
  | nil => simp [allAlternatives]
  | cons f fs ih =>
    rw [List.forall_mem_cons] at h
    rw [allAlternatives, List.forall_mem_append]
    exact ⟨h.1, ih h.2⟩

/-- The alternatives of what is read as a part of a body can be written out. -/
theorem Formula.printable_value {f : Formula WrittenTerm} (h : f.IsConjunct ∨ f.IsConjunction)
    (hf : f.Fits) (count : Nat) : (f.value count).Printable := by
  induction f generalizing count with
  | holds t =>
    have ht := WrittenTerm.printable_value (h.resolve_right id) hf count
    simpa [value, Printable, alternatives] using ht
  | fails t =>
    have ht := WrittenTerm.printable_value (h.resolve_right id) hf count
    simpa [value, Printable, alternatives] using ht
  | every fs ih =>
    obtain ⟨hne, hfs⟩ := h.resolve_left id
    rw [areConjuncts_iff] at hfs
    rw [Fits, allFit_iff] at hf
    obtain ⟨f, fs, rfl⟩ := List.exists_cons_of_ne_nil hne
    rw [value, valueAll_eq_numbered]
    refine printable_every (List.cons_ne_nil _ _) ?_
    exact forall_mem_numbered (fun f hm => ih f hm (.inl (hfs f hm)) (hf f hm)) count
  | some fs ih =>
    obtain ⟨-, hfs⟩ := h.resolve_right id
    rw [areConjunctions_iff] at hfs
    rw [Fits, allFit_iff] at hf
    rw [value, valueAll_eq_numbered]
    apply printable_some
    exact forall_mem_numbered (fun f hm => ih f hm (.inr (hfs f hm)) (hf f hm)) count

end Syntax

/-! ## What can be written out -/

variable {α : Type} [Probability α]

/-- A clause that is read from its text, if its probability is. -/
def Clause.Printable : Clause α → Prop
  | fact h => h.IsHead ∧ ¬ Statement.IsQuery h.written
  | chance p h => h.IsHead ∧ Probability.inUnit p = true
  | rule r => (r.head.IsHead ∧ ¬ Statement.IsQuery r.head.written) ∧ r.body ≠ [] ∧
      ∀ l ∈ r.body, l.atom.Printable

/-- A program whose clauses and queries are such. -/
structure Program.Printable (p : Program α) : Prop where
  clauses : ∀ c ∈ p.clauses, c.Printable
  queries : ∀ q ∈ p.queries, q.Printable

namespace Syntax

/-- The clauses and queries of what is read as a statement can be written out. -/
theorem Statement.printable_value {s : Statement} (hs : s.Lexical) (ha : s.Admissible α) (count : Nat) :
    (s.value count : Program α).Printable := by
  cases s with
  | query t =>
    refine ⟨by simp [value], ?_⟩
    simpa [value] using WrittenTerm.printable_value hs ha.fits count
  | chance p h =>
    obtain ⟨hhead, hunit⟩ := admissible_chance_iff.1 ha
    refine ⟨?_, by simp [value]⟩
    simpa [value, Clause.Printable] using ⟨h.isHead_value hs.2 hhead count, hunit⟩
  | rule h body =>
    obtain ⟨hhead, hbody⟩ := admissible_rule_iff.1 ha
    refine ⟨?_, by simp [value]⟩
    rw [value, List.forall_mem_map]
    intro literals hliterals
    have hquery := mt (WrittenTerm.isQuery_written_value h.term count).1 hs.2.1
    exact ⟨⟨h.isHead_value hs.1 hhead count, hquery⟩,
      Formula.printable_value (.inl (hs.2.2.isConjunct)) hbody _ literals hliterals⟩
  | fact h =>
    have hhead := admissible_fact_iff.1 ha
    have hquery := mt (WrittenTerm.isQuery_written_value h.term count).1 hs.2
    refine ⟨?_, by simp [value]⟩
    simpa [value, Clause.Printable] using ⟨h.isHead_value hs.1 hhead count, hquery⟩

/-- What statements that can be read stand for can be written out. -/
theorem printable_programOf {ss : List Statement} (hs : ∀ s ∈ ss, s.Lexical)
    (ha : ∀ s ∈ ss, s.Admissible α) (count : Nat) : (programOf count ss : Program α).Printable := by
  induction ss generalizing count with
  | nil => exact ⟨by simp [programOf, Program.empty], by simp [programOf, Program.empty]⟩
  | cons s ss ih =>
    rw [List.forall_mem_cons] at hs ha
    have hfirst := Statement.printable_value hs.1 ha.1 count
    have hrest := ih hs.2 ha.2 (count + bareCount s.tokens)
    rw [programOf]
    constructor
    · rw [Program.clauses_append, List.forall_mem_append]
      exact ⟨hfirst.clauses, hrest.clauses⟩
    · rw [Program.queries_append, List.forall_mem_append]
      exact ⟨hfirst.queries, hrest.queries⟩

end Syntax

/-- What is read from a text can be written out. -/
theorem Program.printable_of_ofText {text : String} {p : Program α} (h : Program.ofText text = .ok p) :
    p.Printable := by
  obtain ⟨ss, hw, ha, rfl⟩ := exists_writes_of_ofText h
  exact printable_programOf hw.2 ha 0

/-! ## Statements of clauses -/

/-- The literal as it is written. -/
def Literal.written (l : Literal) : Formula WrittenTerm :=
  if l.positive then .holds l.atom.written else .fails l.atom.written

/-- The statement that a clause is written as. -/
def Clause.statement : Clause α → Statement
  | fact h => .fact ⟨0, h.written⟩
  | chance p h => .chance (Probability.text p).toList ⟨0, h.written⟩
  | rule r => .rule ⟨0, r.head.written⟩ (.some [.every (r.body.map Literal.written)])

namespace Literal

/-- The text of a literal is a layout of its tokens, which begins with the first of them. -/
theorem tight_text (l : Literal) : Tight l.written.tokens l.text.toList := by
  rw [written, text]
  split
  · exact l.atom.tight_text
  · rw [String.toList_append]
    exact ⟨_, rfl, l.atom.tight_text.laid⟩

theorem tokens_written_ne_nil (l : Literal) : l.written.tokens ≠ [] := by
  rw [written]
  split
  · exact l.atom.written.tokens_ne_nil
  · exact List.cons_ne_nil _ _

/-- A literal is written as a conjunct. -/
theorem isConjunct_written {l : Literal} (h : l.atom.Printable) : l.written.IsConjunct := by
  rw [written]
  split <;> exact h.lexical.written

/-- A literal is the only alternative of its written form, wherever it stands. -/
theorem value_written {l : Literal} (h : l.atom.Printable) (count : Nat) :
    l.written.Fits ∧ (l.written.value count).alternatives = [[l]] ∧ bareCount l.written.tokens = 0 := by
  obtain ⟨hfits, hvalue, hcount⟩ := h.value_written count
  obtain ⟨a, positive⟩ := l
  cases positive with
  | true =>
    refine ⟨hfits, ?_, hcount⟩
    show [[(⟨a.written.value count, true⟩ : Literal)]] = _
    rw [hvalue]
  | false =>
    refine ⟨hfits, ?_, ?_⟩
    · show [[(⟨a.written.value count, false⟩ : Literal)]] = _
      rw [hvalue]
    · show bareCount (['\\', '+'] :: a.written.tokens) = 0
      rw [bareCount_cons_of_ne (by decide), hcount]

/-- Further literals of a body are laid out with commas before them. -/
theorem laid_more (ls : List Literal) :
    Laid (Formula.moreTokens [','] (ls.map written)) (ls.flatMap fun l => ", ".toList ++ l.text.toList) := by
  induction ls with
  | nil => rfl
  | cons l ls ih =>
    rw [List.map_cons, Formula.moreTokens, List.flatMap_cons, List.append_assoc]
    have hspace : Laid (l.written.tokens ++ Formula.moreTokens [','] (ls.map written))
        ([' '] ++ (l.text.toList ++ ls.flatMap fun l => ", ".toList ++ l.text.toList)) := by
      refine (l.tight_text.laid.append ih).gap rfl ?_
      exact List.append_ne_nil_of_left_ne_nil l.tokens_written_ne_nil _
    exact Tight.laid ⟨_, rfl, hspace⟩

/-- Literals between commas. -/
theorem laid_body {ls : List Literal} (hne : ls ≠ []) :
    Laid (Formula.every (ls.map written)).tokens (String.intercalate ", " (ls.map text)).toList := by
  obtain ⟨l, ls, rfl⟩ := List.exists_cons_of_ne_nil hne
  rw [List.map_cons, Formula.tokens, List.map_cons, Text.toList_intercalate_cons, List.flatMap_map]
  exact l.tight_text.laid.append (laid_more ls)

/-- Literals between commas are the only alternative of their conjunction. -/
theorem value_body {ls : List Literal} (h : ∀ l ∈ ls, l.atom.Printable) (count : Nat) :
    Formula.AllFit (ls.map written) ∧
      Formula.combinations (Formula.valueAll count (ls.map written)) = [ls] ∧
      bareCount ((ls.map written).flatMap Formula.tokens) = 0 := by
  induction ls generalizing count with
  | nil => exact ⟨trivial, rfl, rfl⟩
  | cons l ls ih =>
    rw [List.forall_mem_cons] at h
    obtain ⟨hfits, hvalue, hcount⟩ := value_written h.1 count
    obtain ⟨hfits', hvalue', hcount'⟩ := ih h.2 (count + bareCount l.written.tokens)
    refine ⟨⟨hfits, hfits'⟩, ?_, ?_⟩
    · rw [List.map_cons, Formula.valueAll, Formula.combinations, hvalue, hvalue']
      rfl
    · rw [List.map_cons, List.flatMap_cons, bareCount_append, hcount, hcount']

end Literal

namespace Clause

/-- The body of a rule as it is written. -/
theorem value_body {ls : List Literal} (h : ∀ l ∈ ls, l.atom.Printable) (count : Nat) :
    (Formula.some [.every (ls.map Literal.written)]).Fits ∧
      ((Formula.some [.every (ls.map Literal.written)]).value count).alternatives = [ls] ∧
      bareCount (Formula.some [.every (ls.map Literal.written)]).tokens = 0 := by
  obtain ⟨hfits, hvalue, hcount⟩ := Literal.value_body h count
  refine ⟨⟨hfits, trivial⟩, ?_, ?_⟩
  · show Formula.combinations (Formula.valueAll count (ls.map Literal.written)) ++ [] = _
    rw [hvalue, List.append_nil]
  · rw [Formula.bareCount_tokens_some, List.flatMap_singleton, Formula.bareCount_tokens_every, hcount]

/-- The literals of a rule are written as a body with one alternative. -/
theorem isBody_written {ls : List Literal} (hne : ls ≠ []) (h : ∀ l ∈ ls, l.atom.Printable) :
    (Formula.some [.every (ls.map Literal.written)]).IsBody := by
  refine ⟨List.cons_ne_nil _ _, ⟨by simpa using hne, ?_⟩, trivial⟩
  rw [Formula.areConjuncts_iff, List.forall_mem_map]
  exact fun l hl => Literal.isConjunct_written (h l hl)

variable {c : Clause α}

/-- The text of a clause is a layout of its statement. -/
theorem tight_text (h : c.Printable) : Tight c.statement.tokens c.text.toList := by
  have hpoint : Laid [['.']] ".".toList := (tight_singleton ['.']).laid
  cases c with
  | fact a =>
    rw [text, String.toList_append]
    exact a.tight_text.append a.written.tokens_ne_nil hpoint
  | chance p a =>
    rw [text]
    simp only [String.toList_append, List.append_assoc]
    exact ⟨_, rfl, Tight.laid ⟨_, rfl, a.tight_text.laid.append hpoint⟩⟩
  | rule r =>
    obtain ⟨-, hne, hliterals⟩ := h
    have hbody := Literal.laid_body hne
    have hne' := Formula.tokens_ne_nil_of_isConjunction (isBody_written hne hliterals).2.1
    have hneck : Laid (":-".toList :: (Formula.every (r.body.map Literal.written)).tokens)
        (" :- ".toList ++ (String.intercalate ", " (r.body.map Literal.text)).toList) :=
      ⟨[' '], ' ' :: _, rfl, rfl, hbody.gap (g := [' ']) rfl hne'⟩
    rw [text, Rule.text]
    simp only [String.toList_append, List.append_assoc]
    show Tight ((r.head.written.tokens ++ ":-".toList :: (_ ++ [])) ++ _) _
    rw [List.append_nil, List.append_assoc]
    refine r.head.tight_text.append r.head.written.tokens_ne_nil ?_
    have := hneck.append hpoint
    simpa only [List.append_assoc] using this

/-- A clause is read from its text if its probability is. -/
def ReadsBack (c : Clause α) : Prop := ∀ p h, c = .chance p h → Probability.ReadsBack p

/-- A clause that can be written out is written as a lexical statement. -/
theorem lexical_statement (h : c.Printable) (hr : c.ReadsBack) : c.statement.Lexical := by
  cases c with
  | fact a => exact ⟨h.1.lexical.written, h.2⟩
  | chance p a =>
    obtain ⟨d, hd, -⟩ := Option.map_eq_some_iff.1 (hr p a rfl)
    exact ⟨isProbability_of_read? hd, h.1.lexical.written⟩
  | rule r =>
    obtain ⟨⟨hhead, hquery⟩, hne, hliterals⟩ := h
    exact ⟨hhead.lexical.written, hquery, isBody_written hne hliterals⟩

/-- A number that reads back is read from its text. -/
theorem writtenProbability_text {p : α} (h : Probability.ReadsBack p) :
    (writtenProbability (Probability.text p).toList : α) = p := by
  obtain ⟨d, hd, hp⟩ := Option.map_eq_some_iff.1 h
  rw [writtenProbability, hd, Option.getD_some, hp]

/-- A clause that can be written out is written as an admissible statement. -/
theorem admissible_statement (h : c.Printable) (hr : c.ReadsBack) : c.statement.Admissible α := by
  cases c with
  | fact a => exact Statement.admissible_fact_iff.2 ⟨h.1.written, (h.1.value_written 0).1⟩
  | chance p a =>
    rw [statement, Statement.admissible_chance_iff, writtenProbability_text (hr p a rfl)]
    exact ⟨⟨h.1.written, (h.1.value_written 0).1⟩, h.2⟩
  | rule r =>
    obtain ⟨⟨hhead, -⟩, -, hliterals⟩ := h
    exact Statement.admissible_rule_iff.2
      ⟨⟨hhead.written, (hhead.value_written 0).1⟩, (value_body hliterals 0).1⟩

/-- The statement of a clause stands for this clause, wherever it is written. -/
theorem value_statement (h : c.Printable) (hr : c.ReadsBack) (count : Nat) :
    (c.statement.value count : Program α) = ⟨[c], []⟩ ∧ bareCount c.statement.tokens = 0 := by
  rw [Statement.bareCount_tokens (lexical_statement h hr)]
  cases c with
  | fact a =>
    obtain ⟨-, hvalue, hcount⟩ := h.1.value_written count
    simp only [statement, Statement.value, hvalue, hcount, and_self]
  | chance p a =>
    obtain ⟨-, hvalue, hcount⟩ := h.1.value_written count
    simp only [statement, Statement.value, hvalue, hcount, writtenProbability_text (hr p a rfl), and_self]
  | rule r =>
    obtain ⟨⟨hhead, -⟩, -, hliterals⟩ := h
    obtain ⟨-, hvalue, hcount⟩ := hhead.value_written count
    obtain ⟨-, hbody, hcount'⟩ := value_body hliterals count
    simp only [statement, Statement.value, hvalue, hcount, Nat.add_zero, hbody, hcount', List.map_singleton,
      and_self]

end Clause

/-! ## Statements of queries -/

namespace Term

/-- A query for an atom, written out. -/
def queryText (q : Term) : String := "query(" ++ q.text ++ ")."

/-- The text of a query is a layout of its tokens. -/
theorem tight_queryText (q : Term) : Tight (Statement.query q.written).tokens q.queryText.toList := by
  have hatom := (q.tight_text.laid.append (tight_singleton [')']).laid).append (tight_singleton ['.']).laid
  rw [queryText, String.toList_append, String.toList_append, List.append_assoc]
  rw [List.append_assoc q.text.toList] at hatom
  exact ⟨_, rfl, Tight.laid ⟨q.text.toList ++ ").".toList, rfl, hatom⟩⟩

/-- A query that can be written out is read as this query, and numbers nothing. -/
theorem Printable.value_query {q : Term} (h : q.Printable) (count : Nat) :
    ((Statement.query q.written).value count : Program α) = ⟨[], [q]⟩ ∧
      bareCount (Statement.query q.written).tokens = 0 := by
  obtain ⟨-, hvalue, hcount⟩ := h.value_written count
  rw [Statement.bareCount_tokens (show (Statement.query q.written).Lexical from h.lexical.written)]
  simp only [Statement.value, hvalue, hcount, and_self]

end Term

/-! ## Programs -/

namespace Syntax

/-- Texts that each are a layout of a statement write these statements, with any white space and comments after
each of them. -/
theorem writes_separated {separator : String} (hs : Gap separator.toList) {texts : List String}
    {ss : List Statement}
    (h : List.Forall₂ (fun text s => s.Lexical ∧ Tight s.tokens text.toList) texts ss) :
    Writes (String.join (texts.map (· ++ separator))).toList ss := by
  rw [String.toList_join, List.flatMap_map]
  induction h with
  | nil => exact ⟨⟨[], [], rfl, rfl, rfl⟩, by simp⟩
  | @cons text s texts ss hfirst _ ih =>
    rw [List.flatMap_cons, String.toList_append, List.append_assoc]
    refine ⟨?_, List.forall_mem_cons.2 ⟨hfirst.1, ih.2⟩⟩
    exact hfirst.2.laid.out (ih.1.gap hs)

/-- Statements that each stand for a program without counting an underscore stand for these programs together. -/
theorem programOf_map_clauses {cs : List (Clause α)} (h : ∀ c ∈ cs, c.Printable ∧ c.ReadsBack)
    (count : Nat) : (programOf count (cs.map Clause.statement) : Program α) = ⟨cs, []⟩ ∧
      bareCount ((cs.map Clause.statement).flatMap Statement.tokens) = 0 := by
  induction cs with
  | nil => exact ⟨rfl, rfl⟩
  | cons c cs ih =>
    rw [List.forall_mem_cons] at h
    obtain ⟨hvalue, hcount⟩ := Clause.value_statement h.1.1 h.1.2 count
    obtain ⟨hvalues, hcounts⟩ := ih h.2
    constructor
    · rw [List.map_cons, programOf, hvalue, hcount, Nat.add_zero, hvalues]
      rfl
    · rw [List.map_cons, List.flatMap_cons, bareCount_append, hcount, hcounts]

theorem programOf_map_queries {qs : List Term} (h : ∀ q ∈ qs, q.Printable) (count : Nat) :
    (programOf count (qs.map fun q => .query q.written) : Program α) = ⟨[], qs⟩ := by
  induction qs with
  | nil => rfl
  | cons q qs ih =>
    rw [List.forall_mem_cons] at h
    obtain ⟨hvalue, hcount⟩ := h.1.value_query (α := α) count
    rw [List.map_cons, programOf, hvalue, hcount, Nat.add_zero, ih h.2]
    rfl

end Syntax

namespace Program

/-- The clauses of a program and then its queries, each written out and followed by a separator. -/
def text (separator : String) (p : Program α) : String :=
  String.join ((p.clauses.map Clause.text ++ p.queries.map Term.queryText).map (· ++ separator))

/-- The statements that a program is written out as. -/
def statements (p : Program α) : List Statement :=
  p.clauses.map Clause.statement ++ p.queries.map fun q => .query q.written

variable {p : Program α}

/-- The text of a program is a layout of the statements that write it, with any gap between them. -/
theorem writes_text (h : p.Printable) (hr : ∀ c ∈ p.clauses, c.ReadsBack) {separator : String}
    (hs : Gap separator.toList) : Writes (p.text separator).toList p.statements := by
  refine writes_separated hs (List.rel_append ?_ ?_)
  · rw [List.forall₂_map_left_iff, List.forall₂_map_right_iff, List.forall₂_same]
    intro c hc
    exact ⟨Clause.lexical_statement (h.clauses c hc) (hr c hc), Clause.tight_text (h.clauses c hc)⟩
  · rw [List.forall₂_map_left_iff, List.forall₂_map_right_iff, List.forall₂_same]
    intro q hq
    exact ⟨(h.queries q hq).lexical.written, q.tight_queryText⟩

/-- The statements that write a program stand for this program. -/
theorem programOf_statements (h : p.Printable) (hr : ∀ c ∈ p.clauses, c.ReadsBack) :
    programOf 0 p.statements = p := by
  obtain ⟨hclauses, -⟩ := programOf_map_clauses (fun c hc => ⟨h.clauses c hc, hr c hc⟩) 0
  rw [statements, programOf_append, hclauses, programOf_map_queries h.queries]
  show (⟨p.clauses ++ [], [] ++ p.queries⟩ : Program α) = p
  rw [List.append_nil, List.nil_append]

/-- The statements that write a program are admissible. -/
theorem admissible_of_mem_statements (h : p.Printable) (hr : ∀ c ∈ p.clauses, c.ReadsBack) :
    ∀ s ∈ p.statements, s.Admissible α := by
  rw [statements, List.forall_mem_append, List.forall_mem_map, List.forall_mem_map]
  constructor
  · intro c hc
    exact Clause.admissible_statement (h.clauses c hc) (hr c hc)
  · intro q hq
    exact Statement.admissible_query_iff.2 ((h.queries q hq).value_written 0).1

/-- A program that is read from a text is read again when it is written out, if the texts of its probabilities
read back, and whatever white space and comments separate what is written. -/
theorem ofText_text {text : String} (hp : ofText text = .ok p)
    (hr : ∀ weight a, .chance weight a ∈ p.clauses → Probability.ReadsBack weight) {separator : String}
    (hs : Gap separator.toList) : ofText (p.text separator) = .ok p := by
  have hprintable := printable_of_ofText hp
  have hreads : ∀ c ∈ p.clauses, c.ReadsBack := by
    rintro _ hc weight a rfl
    exact hr weight a hc
  rw [ofText_of_writes (writes_text hprintable hreads hs) (admissible_of_mem_statements hprintable hreads),
    programOf_statements hprintable hreads]

/-- A draw whose first fact has the name of a query, with a rule for two cases. -/
def draw : Program Float where
  clauses := [.chance 0.5 (.compound "query" [.compound "red" [.int (-3)]]),
    .rule ⟨.compound "win" [.var "_G1"], [⟨.compound "red" [.var "T"], true⟩, ⟨.var "Late", false⟩]⟩,
    .rule ⟨.compound "win" [.var "_G1"], [⟨.compound "blue" [.var "_G2"], false⟩, ⟨.var "Late", false⟩]⟩]
  queries := [.compound "win" [.var "Y"]]

theorem ofText_text_draw :
    ofText "0.5::query(red(-3)). win(_) :- (red(T) ; \\+ blue(_)), \\+ Late. query(win(Y))." = .ok draw ∧
      (∀ weight a, .chance weight a ∈ draw.clauses → Probability.ReadsBack weight) ∧
      Gap " ".toList ∧
      draw.text " " = "0.5::query(red(-3)). win(_G1) :- red(T), \\+Late. " ++
        "win(_G1) :- \\+blue(_G2), \\+Late. query(win(Y)). " ∧
      ofText (draw.text " ") = .ok draw := by
  have hp : ofText "0.5::query(red(-3)). win(_) :- (red(T) ; \\+ blue(_)), \\+ Late. query(win(Y))." =
      .ok draw := by decide +kernel
  have hreads : ∀ weight a, .chance weight a ∈ draw.clauses → Probability.ReadsBack weight := by
    intro weight a ha
    obtain ⟨rfl, -⟩ : weight = 0.5 ∧ a = .compound "query" [.compound "red" [.int (-3)]] := by
      simpa [draw] using ha
    show (Decimal.read? (Probability.text (0.5 : Float)).toList).map Probability.ofDecimal = some 0.5
    decide +kernel
  exact ⟨hp, hreads, rfl, by decide +kernel, ofText_text hp hreads rfl⟩

end Program

end TimedInference
