import TimedInference.Proofs.Syntax.Boundaries
import TimedInference.Proofs.Syntax.Counts
import TimedInference.Proofs.Template.Lines

/-!
# Taking a program text apart

A text of a program, declared facts and a query that can be read at all consists of a program, of the
clauses of the facts and of what the query's text stands for: the double colon of the first fact shows
where the facts begin.  So with other probabilities for the facts it is the same program with these
probabilities (`exists_parts_of_ofText`).
-/

namespace TimedInference

open Syntax Syntax.Resolving

variable {α : Type} [Probability α]

theorem toList_factLines (program : String) (facts : List (Event α)) (query : Query) :
    (factLines program facts query).toList = program.toList ++ '\n' ::
      (facts.flatMap (fun e => e.text.toList ++ ['\n']) ++ (query.text.toList ++ ['\n'])) := by
  rw [factLines, toList_join_lines]
  simp [List.flatMap_append, List.flatMap_map]

/-- The line of a declared fact begins with a zero and a double colon. -/
theorem toList_declaration {d : Event α} (h : d.template.Standard) :
    ∃ cs, (Event.declaration d.template d.time : Event α).text.toList = '0' :: ':' :: ':' :: cs :=
  ⟨_, FactTemplate.toList_mock h d.time⟩

/-- After the program the text begins with a zero and a double colon. -/
theorem exists_front {declarations : List (Event α)} (hne : declarations ≠ [])
    (hd : ∀ d ∈ declarations, d.template.Standard ∧ Time.Fits d.time) (query : Query) :
    ∃ cs, (declared declarations).flatMap (fun e => e.text.toList ++ ['\n']) ++
      (query.text.toList ++ ['\n']) = '0' :: ':' :: ':' :: cs := by
  obtain ⟨d, ds, rfl⟩ := List.exists_cons_of_ne_nil hne
  obtain ⟨cs, hcs⟩ := toList_declaration (hd d (by simp)).1
  rw [declared, List.map_cons, List.flatMap_cons, hcs]
  exact ⟨_, rfl⟩

/-- What is laid out on a line is laid out without the line's end, since no token holds it. -/
theorem Syntax.Writes.of_line {text : List Char} {ss : List Statement}
    (h : LaidOut (ss.flatMap Statement.tokens) (text ++ ['\n'])) (hlex : ∀ s ∈ ss, s.Lexical) :
    Writes text ss := by
  obtain ⟨us, vs, e, hu, hv⟩ := h.split fun t ht =>
    (isToken_of_mem_flatMap hlex ht).plain.newline_not_mem
  have hnil : vs = [] := hv.eq_nil fun t ht =>
    (isToken_of_mem_flatMap hlex (show t ∈ ss.flatMap Statement.tokens by simp [e, ht])).plain.1
  rw [hnil, List.append_nil] at e
  exact ⟨e ▸ hu, hlex⟩

/-- The statements of a text of a program, declared facts and a query are those of the program, one for each
fact, and those of the query. -/
theorem exists_split_of_writes {program : String} {declarations : List (Event α)}
    (hne : declarations ≠ [])
    (hd : ∀ d ∈ declarations, d.template.Standard ∧ Time.Fits d.time) {query : Query}
    {ss : List Statement} (h : Writes (Entry.programText program declarations query).toList ss)
    (hcompound : ∀ s ∈ ss, s.HasCompoundHead) :
    ∃ own facts asked, ss = own ++ (facts ++ asked) ∧ Writes program.toList own ∧
      facts.map Statement.unplaced =
        ((declared declarations).map Event.statement).map Statement.unplaced ∧
      Writes query.text.toList asked := by
  obtain ⟨hlaid, hlex⟩ := h
  have hplain := plain_of_declared hd
  -- the first fact shows where the program ends
  obtain ⟨cs, hcs⟩ := exists_front hne hd query
  rw [programText_eq_factLines, toList_factLines, hcs] at hlaid
  obtain ⟨own, others, rfl, hbefore, hrest⟩ := split_before_fact hlex hlaid
  rw [List.forall_mem_append] at hlex hcompound
  -- the lines of the facts are read one by one
  have hlines : ∀ l ∈ (declared declarations).map (fun e => (e.statement, e.text.toList)),
      l.1.Lexical ∧ l.1.HasCompoundHead ∧ Tight l.1.tokens l.2 := by
    intro l hl
    obtain ⟨e, he, rfl⟩ := List.mem_map.1 hl
    exact ⟨FactTemplate.lexical_statement (hplain e he).standard e.time (hplain e he).readsBack,
      ⟨_, _, rfl⟩, FactTemplate.tight_render (hplain e he).standard e.time e.probability⟩
  rw [← hcs, ← List.flatMap_map (fun e : Event α => (e.statement, e.text.toList))
    (fun l => l.2 ++ ['\n'])] at hrest
  obtain ⟨facts, asked, rfl, hfacts, hlast⟩ := split_after_lines hlines hlex.2 hcompound.2 hrest
  rw [List.forall_mem_append] at hlex
  refine ⟨own, facts, asked, rfl, ⟨hbefore, hlex.1⟩, ?_, .of_line hlast hlex.2.2⟩
  rw [hfacts, List.map_map, List.map_map]
  rfl

/-- A readable text of a program, declared facts and a query consists of three programs.  The first one is
what the program's own text stands for.  The middle one may be replaced by other facts, and the last one is
what the query's own text stands for, up to the names of anonymous variables. -/
theorem exists_parts_of_ofText {program : String} {declarations : List (Event α)}
    (hne : declarations ≠ [])
    (hd : ∀ d ∈ declarations, d.template.Standard ∧ Time.Fits d.time) {query : Query}
    {p : Program α} (h : Program.ofText (Entry.programText program declarations query) = .ok p) :
    ∃ before after own : Program α,
      Program.ofText program = .ok before ∧
      (∀ facts : List (Event α), (∀ e ∈ facts, e.Plain) →
        Program.ofText (factLines program facts query) =
          .ok (before ++ (⟨facts.map Event.clause, []⟩ ++ after))) ∧
      Program.ofText query.text = .ok own ∧
      ∀ q a, a.isGround = true → Clause.chance q a ∈ after.clauses →
        Clause.chance q a ∈ own.clauses := by
  obtain ⟨ss, count, hwrites, hv⟩ := Program.ofText_eq_ok_iff.1 h
  obtain ⟨ss₁, ss₃, ss₄, rfl, hprogram, hfacts, hquery⟩ :=
    exists_split_of_writes hne hd hwrites (hasCompoundHead_of_value? hv)
  -- the three parts resolve one after the other
  rw [value?_resolveStatements_append, Option.bind_eq_some_iff] at hv
  obtain ⟨⟨before, n₁⟩, hv₁, hv⟩ := hv
  obtain ⟨⟨q, n⟩, hv, -⟩ := Option.map_eq_some_iff.1 hv
  have hmiddle : value? (resolveStatements ss₃ : Resolving (Program α)) n₁ =
      some (⟨(declared declarations).map Event.clause, []⟩, n₁) := by
    rw [value?_resolveStatements_congr hfacts, Event.value?_statements (plain_of_declared hd)]
  rw [value?_resolveStatements_append, hmiddle, Option.bind_some, Option.map_eq_some_iff] at hv
  obtain ⟨⟨after, n₂⟩, hv₂, -⟩ := hv
  obtain ⟨⟨own, n₀⟩, hown, hchances⟩ := exists_value?_of_value? 0 hv₂
  exact ⟨before, after, own, Program.ofText_eq_ok_iff.2 ⟨ss₁, n₁, hprogram, hv₁⟩,
    fun facts hf => ofText_factLines_of_writes hprogram hv₁ hquery hv₂ hf,
    Program.ofText_eq_ok_iff.2 ⟨ss₄, n₀, hquery, hown⟩, hchances⟩

end TimedInference
