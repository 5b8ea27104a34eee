import Mathlib.Data.List.Forall2
import TimedInference.Cache.Entry
import TimedInference.Proofs.Template.Texts

/-!
# Lines of a program text

The text that is compiled for a query has the program, the facts and the query on lines of their own, and
each line writes its own statements (`writes_lines`).  A fact in the default format writes one statement,
which stands for one clause if the text of its probability reads back, and the query writes one as well.
So the text is the program with these clauses and this query (`ofText_factLines`).
-/

namespace TimedInference

open Syntax Syntax.Resolving

/-! ## Probabilities as texts -/

namespace Probability

variable {α : Type} [Probability α]

/-- The text of a number is a decimal that is read as the number. -/
def ReadsBack (p : α) : Prop := (Decimal.read? (text p).toList).map ofDecimal = some p

/-- Zero is read back from its text. -/
theorem readsBack_zero : ReadsBack (0 : α) := by
  have hread : Decimal.read? "0".toList = some ⟨0, 0⟩ := by decide
  rw [ReadsBack, text_zero, hread, Option.map_some, ofDecimal_zero]

end Probability

namespace Syntax

theorem isDigits_of_magnitude? {ds : List Char} {n : Nat}
    (h : Decimal.readExponent?.magnitude? ds = some n) : IsDigits ds := by
  unfold Decimal.readExponent?.magnitude? at h
  split at h
  · assumption
  · simp at h

/-- What is read as an exponent has the form of one. -/
theorem isExponent_of_readExponent? {cs : List Char} {n : Int}
    (h : Decimal.readExponent? cs = some n) : IsExponent cs := by
  cases cs with
  | nil => exact .inl rfl
  | cons e cs =>
    unfold Decimal.readExponent? at h
    simp only at h
    split at h
    · rename_i he
      have hsign {sign ds : List Char} (hs : sign = [] ∨ sign = ['+'] ∨ sign = ['-'])
          (hd : Decimal.readExponent?.magnitude? ds ≠ none) : IsExponent (e :: (sign ++ ds)) := by
        obtain ⟨k, hk⟩ := Option.ne_none_iff_exists'.1 hd
        exact .inr ⟨e, sign, ds, rfl, he, hs, isDigits_of_magnitude? hk⟩
      split at h
      · exact hsign (.inr (.inr rfl)) fun hn => by simp [hn] at h
      · exact hsign (.inr (.inl rfl)) fun hn => by simp [hn] at h
      · exact hsign (.inl rfl) fun hn => by simp [hn] at h
    · simp at h

/-- A text that is read as a decimal has the form of a probability. -/
theorem isProbability_of_read? {cs : List Char} {d : Decimal} (h : Decimal.read? cs = some d) :
    IsProbability cs := by
  have hcut (xs : List Char) := List.takeWhile_append_dropWhile (p := Char.isDigit) (l := xs)
  have hdigits (xs : List Char) : (xs.takeWhile Char.isDigit).all Char.isDigit = true :=
    List.all_takeWhile
  unfold Decimal.read? at h
  simp only at h
  split at h
  · simp at h
  · rename_i hwhole
    split at h
    · -- a point and digits follow the whole part
      rename_i rest hrest
      split at h
      · simp at h
      · rename_i hfraction
        obtain ⟨e, he, -⟩ := Option.map_eq_some_iff.1 h
        refine ⟨cs.takeWhile Char.isDigit, '.' :: rest.takeWhile Char.isDigit,
          rest.dropWhile Char.isDigit, ?_, ⟨hwhole, hdigits cs⟩,
          .inr ⟨_, rfl, hfraction, hdigits rest⟩, isExponent_of_readExponent? he⟩
        rw [List.append_assoc, List.cons_append, hcut, ← hrest, hcut]
    · obtain ⟨e, he, -⟩ := Option.map_eq_some_iff.1 h
      refine ⟨cs.takeWhile Char.isDigit, [], cs.dropWhile Char.isDigit, ?_, ⟨hwhole, hdigits cs⟩,
        .inl rfl, isExponent_of_readExponent? he⟩
      rw [List.append_nil, hcut]

/-! ## Lines -/

/-- Whole texts on lines of their own make a whole text. -/
theorem Writes.append_newline {xs ys : List Char} {ss ss' : List Statement} (h : Writes xs ss)
    (h' : Writes ys ss') : Writes (xs ++ '\n' :: ys) (ss ++ ss') := by
  refine ⟨?_, fun s hs => (List.mem_append.1 hs).elim (h.2 s) (h'.2 s)⟩
  rw [List.flatMap_append]
  exact h.1.append_newline h'.1

/-- A text of lines, each with its end. -/
theorem toList_join_lines (lines : List String) :
    (String.join (lines.map (· ++ "\n"))).toList = lines.flatMap fun l => l.toList ++ ['\n'] := by
  rw [String.toList_join, List.flatMap_map]
  simp only [String.toList_append]
  rfl

/-- Lines that each write statements write all of them in order. -/
theorem writes_lines {lines : List String} {sss : List (List Statement)}
    (h : List.Forall₂ (fun l ss => Writes l.toList ss) lines sss) :
    Writes (String.join (lines.map (· ++ "\n"))).toList sss.flatten := by
  rw [toList_join_lines]
  induction h with
  | nil => exact ⟨⟨[], [], rfl, rfl, rfl⟩, by simp⟩
  | @cons l ss lines sss hl _ ih =>
    rw [List.flatMap_cons, List.flatten_cons, List.append_assoc]
    exact hl.append_newline ih

/-- A text that a single statement lays out is written by it. -/
theorem writes_singleton {s : Statement} (hs : s.Lexical) {text : List Char}
    (h : Tight s.tokens text) : Writes text [s] := by
  refine ⟨⟨text, [], (List.append_nil text).symm, ?_, rfl⟩, by simpa using hs⟩
  rw [List.flatMap_singleton]
  exact h.laid

end Syntax

/-! ## Facts and queries -/

/-- A readable term without variables is what its written form stands for. -/
theorem Term.value?_written_of_isGround {t : Term} (hg : t.isGround = true)
    (hi : ∀ n ∈ t.integers, Time.Fits n) (count : Nat) :
    value? t.written.resolve count = some (t, count) := by
  refine value?_written (fun x hx => ?_) hi count
  rw [Term.isGround_iff.1 hg] at hx
  simp at hx

namespace FactTemplate

variable {α : Type} [Probability α] {t : FactTemplate}

/-- The statement that a fact in the default format writes. -/
def statement (t : FactTemplate) (time : Int) (p : α) : Statement :=
  .chance (Probability.text p).toList ⟨0, (t.atom time).written⟩

/-- The statement of a fact in the default format is lexical. -/
theorem lexical_statement (h : t.Standard) (time : Int) {p : α} (hp : Probability.ReadsBack p) :
    (t.statement time p).Lexical := by
  obtain ⟨d, hd, -⟩ := Option.map_eq_some_iff.1 hp
  exact ⟨isProbability_of_read? hd, (lexical_atom h time).written⟩

/-- What a template renders is a layout of its statement. -/
theorem tight_render (h : t.Standard) (time : Int) (p : α) :
    Tight (t.statement time p).tokens (t.render time p).toList := by
  rw [toList_render h]
  have hatom := (t.atom time).tight_text.laid.append (tight_singleton ['.']).laid
  exact ⟨_, rfl, Tight.laid ⟨_, rfl, hatom⟩⟩

/-- A fact in the default format stands for one clause. -/
theorem value?_statement {time : Int} (ht : Time.Fits time) {p : α} (hp : Probability.ReadsBack p)
    (hin : Probability.inUnit p = true) (count : Nat) :
    value? (t.statement time p).resolve count =
      some (⟨[.chance p (t.atom time)], []⟩, count) := by
  have hatom : value? (t.atom time).written.resolve count = some (t.atom time, count) :=
    Term.value?_written_of_isGround rfl (by simpa [atom, Term.integers] using ht) count
  rw [statement, Statement.resolve, value?_bind, WrittenHead.value?_resolve, hatom]
  rw [Probability.ReadsBack] at hp
  simp [Option.filter, hp, hin, atom, Term.functor?]

end FactTemplate

namespace Query

/-- The atom that a query asks for. -/
def atom (q : Query) : Term := q.template.atom q.time

/-- The statement that a query writes. -/
def statement (q : Query) : Statement := .query q.atom.written

theorem tight_text (q : Query) : Tight q.statement.tokens q.text.toList := by
  have hatom := (q.atom.tight_text.laid.append (tight_singleton [')']).laid).append
    (tight_singleton ['.']).laid
  have htext : q.text.toList =
      "query".toList ++ (['('] ++ (q.atom.text.toList ++ [')'] ++ ['.'])) := by
    rw [text, QueryTemplate.render, String.toList_append, String.toList_append, List.append_assoc,
      List.append_assoc]
    rfl
  rw [htext]
  exact ⟨_, rfl, Tight.laid ⟨_, rfl, hatom⟩⟩

/-- The text of a query writes its statement. -/
theorem writes_text {q : Query} (h : q.atom.Lexical) : Writes q.text.toList [q.statement] :=
  writes_singleton (show q.statement.Lexical from h.written) q.tight_text

/-- A query for a ground atom stands for this atom. -/
theorem value?_statement {α : Type} [Probability α] {q : Query} (hg : q.atom.isGround = true)
    (hi : ∀ n ∈ q.atom.integers, Time.Fits n) (count : Nat) :
    value? (q.statement.resolve : Resolving (Program α)) count = some (⟨[], [q.atom]⟩, count) := by
  rw [statement, Statement.resolve, value?_bind, Term.value?_written_of_isGround hg hi]
  rfl

end Query

/-! ## Program texts -/

variable {α : Type} [Probability α]

/-- A program, facts and a query, each on a line. -/
def factLines (program : String) (facts : List (Event α)) (query : Query) : String :=
  String.join ((program :: facts.map Event.text ++ [query.text]).map (· ++ "\n"))

/-- The declared facts with probability zero. -/
def declared (declarations : List (Event α)) : List (Event α) :=
  declarations.map fun d => .declaration d.template d.time

/-- The text that is compiled has the declared facts with probability zero. -/
theorem programText_eq_factLines (program : String) (declarations : List (Event α)) (query : Query) :
    Entry.programText program declarations query =
      factLines program (declared declarations) query := by
  rw [Entry.programText, factLines, declared, List.map_map]
  rfl

/-- A fact that is read as the clause it writes. -/
structure Event.Plain (e : Event α) : Prop where
  standard : e.template.Standard
  fits : Time.Fits e.time
  readsBack : Probability.ReadsBack e.probability

/-- Declared facts in the default format are plain, as zero reads back. -/
theorem plain_of_declared {declarations : List (Event α)}
    (hd : ∀ d ∈ declarations, d.template.Standard ∧ Time.Fits d.time) :
    ∀ e ∈ declared declarations, e.Plain := by
  intro e he
  obtain ⟨d, hdm, rfl⟩ := List.mem_map.1 he
  exact ⟨(hd d hdm).1, (hd d hdm).2, Probability.readsBack_zero⟩

namespace Event

/-- The statement that a fact writes. -/
def statement (e : Event α) : Statement := e.template.statement e.time e.probability

/-- The atom that a fact is about. -/
def atom (e : Event α) : Term := e.template.atom e.time

/-- The clause that a fact stands for. -/
def clause (e : Event α) : Clause α := .chance e.probability e.atom

/-- The text of an event writes its statement. -/
theorem writes_text {e : Event α} (h : e.Plain) : Writes e.text.toList [e.statement] :=
  writes_singleton (FactTemplate.lexical_statement h.standard e.time h.readsBack)
    (FactTemplate.tight_render h.standard e.time e.probability)

/-- The statements of plain events stand for their clauses, and number nothing. -/
theorem value?_statements {es : List (Event α)} (h : ∀ e ∈ es, e.Plain) (count : Nat) :
    value? (resolveStatements (es.map statement)) count = some (⟨es.map clause, []⟩, count) := by
  induction es with
  | nil => rfl
  | cons e es ih =>
    rw [List.forall_mem_cons] at h
    have he := FactTemplate.value?_statement (t := e.template) h.1.fits h.1.readsBack e.inUnit count
    rw [List.map_cons, value?_resolveStatements_cons, statement, he, Option.bind_some, ih h.2]
    rfl

end Event

/-- A program, facts and a query that write statements write all of them in order. -/
theorem writes_factLines {program : String} {ss ss' : List Statement}
    (hp : Writes program.toList ss) {facts : List (Event α)} (hf : ∀ e ∈ facts, e.Plain)
    {query : Query} (hq : Writes query.text.toList ss') :
    Writes (factLines program facts query).toList (ss ++ (facts.map Event.statement ++ ss')) := by
  have hlines : List.Forall₂ (fun (l : String) ss => Writes l.toList ss)
      (program :: facts.map Event.text ++ [query.text])
      (ss :: facts.map (fun e => [e.statement]) ++ [ss']) := by
    refine .cons hp (List.rel_append ?_ (.cons hq .nil))
    rw [List.forall₂_map_left_iff, List.forall₂_map_right_iff, List.forall₂_same]
    exact fun e he => Event.writes_text (hf e he)
  have hstatements : (ss :: facts.map (fun e => [e.statement]) ++ [ss']).flatten =
      ss ++ (facts.map Event.statement ++ ss') := by
    rw [List.cons_append, List.flatten_cons, List.flatten_append, ← List.flatMap_def,
      List.map_eq_flatMap, List.flatten_singleton]
  rw [← hstatements]
  exact writes_lines hlines

/-- A text of a program, facts and a query is the program with the clauses of the facts and with what the
query's text stands for. -/
theorem ofText_factLines_of_writes {program : String} {ss ss' : List Statement} {p p' : Program α}
    {count count' : Nat} (hp : Writes program.toList ss)
    (hv : value? (resolveStatements ss) 0 = some (p, count)) {query : Query}
    (hq : Writes query.text.toList ss')
    (hv' : value? (resolveStatements ss') count = some (p', count')) {facts : List (Event α)}
    (hf : ∀ e ∈ facts, e.Plain) :
    Program.ofText (factLines program facts query) =
      .ok (p ++ (⟨facts.map Event.clause, []⟩ ++ p')) := by
  refine Program.ofText_eq_ok_iff.2 ⟨_, count', writes_factLines hp hf hq, ?_⟩
  rw [value?_resolveStatements_append, hv, Option.bind_some, value?_resolveStatements_append,
    Event.value?_statements hf, Option.bind_some, hv']
  rfl

/-- A program with facts and a query on lines of their own is read as the program with the clauses of the
facts and the query. -/
theorem ofText_factLines {program : String} {p : Program α} (hp : Program.ofText program = .ok p)
    {facts : List (Event α)} (hf : ∀ e ∈ facts, e.Plain) {query : Query}
    (hl : query.atom.Lexical) (hg : query.atom.isGround = true)
    (hi : ∀ n ∈ query.atom.integers, Time.Fits n) :
    Program.ofText (factLines program facts query) =
      .ok (p ++ (⟨facts.map Event.clause, []⟩ ++ ⟨[], [query.atom]⟩)) := by
  obtain ⟨ss, count, hw, hv⟩ := Program.ofText_eq_ok_iff.1 hp
  have hquery : value? (resolveStatements [query.statement] : Resolving (Program α)) count =
      some (⟨[], [query.atom]⟩, count) := by
    rw [value?_resolveStatements_cons, Query.value?_statement hg hi]
    rfl
  exact ofText_factLines_of_writes hw hv (Query.writes_text hl) hquery hf

end TimedInference
