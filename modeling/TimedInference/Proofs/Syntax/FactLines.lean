import TimedInference.Proofs.Syntax.Boundaries
import TimedInference.Proofs.Syntax.Printing

/-!
# Lines that write a fact

The double colon of a probabilistic fact is found again wherever its line stands in a text
(`LaidOut.exists_append_separator`), and after it a text is read in one way.  So the text has a probabilistic
fact with the head of the line (`WritesFact.exists_chance`), although its probability may begin before the
line.
-/

namespace TimedInference.Syntax

/-! ## Double colons and heads -/

/-- A double colon after a run of other characters, with white space and comments in between, is a token. -/
theorem LaidOut.exists_append_separator {ts : List Token} (ht : ∀ t ∈ ts, IsToken t)
    {cs gap rest : List Char} (hc : ∀ c ∈ cs, (isSpace c || c = '%') = false ∧ c ≠ ':') (hg : Gap gap)
    (h : LaidOut ts (cs ++ (gap ++ ':' :: ':' :: rest))) :
    ∃ us vs, ts = us ++ "::".toList :: vs ∧ LaidOut vs rest := by
  induction ts generalizing cs with
  | nil =>
    cases cs with
    | nil =>
      obtain ⟨vs, hvs, -⟩ := (h.of_gap (by simp) hg).exists_cons_separator ht
      simp at hvs
    | cons c cs =>
      obtain ⟨t, ts, more, hts, -, -⟩ := h.exists_cons (hc c List.mem_cons_self).1
      simp at hts
  | cons t ts ih =>
    cases cs with
    | nil =>
      obtain ⟨vs, hvs, hv⟩ := (h.of_gap (fun t hm => (ht t hm).plain) hg).exists_cons_separator ht
      exact ⟨[], vs, hvs, hv⟩
    | cons c cs =>
      obtain ⟨t', ts', more, hts, e, hmore⟩ := h.exists_cons (hc c List.mem_cons_self).1
      obtain ⟨rfl, rfl⟩ := List.cons.inj hts
      rw [List.forall_mem_cons] at ht
      obtain ⟨cs', hcs', rfl⟩ := ht.1.exists_append_of_run (hc c List.mem_cons_self).2 hg e
      rw [hcs', List.forall_mem_append] at hc
      obtain ⟨us, vs, rfl, hv⟩ := ih ht.2 hc.2 hmore
      exact ⟨t :: us, vs, rfl, hv⟩

/-- Where the head of a fact stands with its point, a text is read in one way. -/
theorem head_unique {w : WrittenTerm} (hw : w.Lexical) (hc : ∃ f ts, w = .compound f ts)
    {text : List Char} (ht : Laid (w.tokens ++ [['.']]) text) {h : WrittenHead} (hh : h.term.Lexical)
    (hhc : ∃ f ts, h.term = .compound f ts) {ss : List Statement} (hs : ∀ s ∈ ss, s.Lexical)
    (hsc : ∀ s ∈ ss, s.HasCompoundHead) {rest : List Char}
    (hl : LaidOut (h.term.tokens ++ [['.']] ++ ss.flatMap Statement.tokens) (text ++ rest)) :
    h.term.unplaced = w.unplaced := by
  -- with a probability in front both are statements
  have hzero : IsProbability ['0'] := ⟨['0'], [], [], rfl, ⟨by decide, by decide⟩, .inl rfl, .inl rfl⟩
  have hfact : Tight (Statement.chance ['0'] ⟨0, w⟩).tokens ('0' :: ':' :: ':' :: text) :=
    ⟨_, rfl, Tight.laid ⟨_, rfl, ht⟩⟩
  have hnumber : Laid [['0'], "::".toList] "0::".toList := ⟨[], _, rfl, rfl, [], [], rfl, rfl, rfl⟩
  have hall : LaidOut ((Statement.chance ['0'] h :: ss).flatMap Statement.tokens)
      ('0' :: ':' :: ':' :: text ++ rest) := by
    rw [List.flatMap_cons]
    exact hnumber.out hl
  have hlexical : ∀ s ∈ Statement.chance ['0'] h :: ss, s.Lexical :=
    List.forall_mem_cons.2 ⟨⟨hzero, hh⟩, hs⟩
  have hheads : ∀ s ∈ Statement.chance ['0'] h :: ss, s.HasCompoundHead :=
    List.forall_mem_cons.2 ⟨hhc, hsc⟩
  obtain ⟨s, ss', hcons, hunplaced, -⟩ := split_after_statement (s := .chance ['0'] ⟨0, w⟩)
    ⟨hzero, hw⟩ hc hlexical hheads hfact hall
  obtain ⟨rfl, rfl⟩ := List.cons.inj hcons
  rw [Statement.unplaced, Statement.unplaced, Statement.chance.injEq] at hunplaced
  exact congrArg WrittenHead.term hunplaced.2

/-! ## Texts of one fact -/

/-- The text is a layout of one probabilistic fact, cut at its double colon. -/
structure WritesFact (text front back : List Char) (p : Token) (w : WrittenTerm) : Prop where
  text_eq : text = front ++ ':' :: ':' :: back
  front_eq : ∃ gap gap', front = gap ++ (p ++ gap') ∧ Gap gap ∧ Gap gap'
  isProbability : IsProbability p
  laidOut : LaidOut (w.tokens ++ [['.']]) back
  lexical : w.Lexical
  isCompound : ∃ f ts, w = .compound f ts

theorem Writes.exists_writesFact {text : List Char} {p : Token} {h : WrittenHead}
    (hw : Writes text [.chance p h]) (hc : ∃ f ts, h.term = .compound f ts) :
    ∃ front back, WritesFact text front back p h.term := by
  obtain ⟨hlaid, hlexical⟩ := hw
  obtain ⟨hp, hh⟩ := hlexical _ List.mem_cons_self
  rw [List.flatMap_singleton] at hlaid
  obtain ⟨_, final, rfl, ⟨gap, _, rfl, hgap, gap', xs, rfl, hgap', hxs⟩, hfinal⟩ := hlaid
  refine ⟨gap ++ (p ++ gap'), xs ++ final, ?_, ⟨gap, gap', rfl, hgap, hgap'⟩, hp, ?_, hh, hc⟩
  · simp only [List.append_assoc]
    rfl
  · exact ⟨xs, final, rfl, hxs, hfinal⟩

namespace WritesFact

variable {line front back : List Char} {p : Token} {w : WrittenTerm}

/-- Where the line stands in a text, the text has a probabilistic fact with its head, up to places. -/
theorem exists_chance (hl : WritesFact line front back p w) {ss : List Statement}
    (hs : ∀ s ∈ ss, s.Lexical) (hc : ∀ s ∈ ss, s.HasCompoundHead) {xs ys : List Char}
    (h : LaidOut (ss.flatMap Statement.tokens) (xs ++ '\n' :: (line ++ '\n' :: ys))) :
    ∃ p' h', .chance p' h' ∈ ss ∧ h'.term.unplaced = w.unplaced := by
  have ht {t : Token} (ht : t ∈ ss.flatMap Statement.tokens) := isToken_of_mem_flatMap hs ht
  obtain ⟨us, vs, e, -, hv⟩ := h.split fun t hm => (ht hm).plain.newline_not_mem
  have htv : ∀ t ∈ vs, IsToken t := fun t hm => ht (by simp [e, hm])
  -- the double colon of the line is a token
  obtain ⟨gap, gap', hfront, hgap, hgap'⟩ := hl.front_eq
  have hline : line ++ '\n' :: ys = gap ++ (p ++ (gap' ++ ':' :: ':' :: (back ++ '\n' :: ys))) := by
    rw [hl.text_eq, hfront]
    simp only [List.append_assoc, List.cons_append]
  rw [hline] at hv
  have hrun : ∀ c ∈ p, (isSpace c || c = '%') = false ∧ c ≠ ':' := by
    intro c hm
    refine ⟨hl.isProbability.plain.solid_of_mem hm, ?_⟩
    rintro rfl
    exact hl.isProbability.colon_not_mem hm
  obtain ⟨us', vs', rfl, hv'⟩ :=
    (hv.of_gap (fun t hm => (htv t hm).plain) hgap).exists_append_separator htv hrun hgap'
  -- after it the text of the line is read in one way
  rw [← List.append_assoc] at e
  obtain ⟨ss₁, p', h', ss₂, rfl, -, rfl⟩ := exists_chance_of_separator hs e
  simp only [List.forall_mem_append, List.forall_mem_cons] at hs hc
  obtain ⟨zs, final, rfl, hz, -⟩ := hl.laidOut
  rw [List.append_assoc zs] at hv'
  exact ⟨p', h', by simp, head_unique hl.lexical hl.isCompound hz hs.2.1.2 hc.2.1 hs.2.2 hc.2.2 hv'⟩

end WritesFact

/-! ## Programs of one fact -/

namespace Formula

theorem combinations_ne_nil {fs : List (Formula Term)} (h : ∀ f ∈ fs, f.alternatives ≠ []) :
    combinations fs ≠ [] := by
  induction fs with
  | nil => simp [combinations]
  | cons f fs ih =>
    rw [List.forall_mem_cons] at h
    obtain ⟨body, bodies, hbody⟩ := List.exists_cons_of_ne_nil h.1
    rw [combinations, Ne, List.flatMap_eq_nil_iff]
    intro hnil
    have hrest := hnil body (by simp [hbody])
    exact ih h.2 (List.map_eq_nil_iff.1 hrest)

/-- A body has an alternative. -/
theorem alternatives_value_ne_nil {f : Formula WrittenTerm} (h : f.IsConjunct ∨ f.IsConjunction)
    (count : Nat) : (f.value count).alternatives ≠ [] := by
  induction f generalizing count with
  | holds t => simp [value, alternatives]
  | fails t => simp [value, alternatives]
  | every fs ih =>
    have hfs := areConjuncts_iff.1 (h.resolve_left id).2
    rw [value, alternatives, valueAll_eq_numbered]
    apply combinations_ne_nil
    exact forall_mem_numbered (P := fun f : Formula Term => f.alternatives ≠ [])
      (fun f hf => ih f hf (.inl (hfs f hf))) count
  | some fs ih =>
    obtain ⟨hne, hfs⟩ := h.resolve_right id
    rw [areConjunctions_iff] at hfs
    obtain ⟨f, fs, rfl⟩ := List.exists_cons_of_ne_nil hne
    rw [value, valueAll, alternatives, allAlternatives]
    exact List.append_ne_nil_of_left_ne_nil
      (ih f List.mem_cons_self (.inr (hfs f List.mem_cons_self)) count) _

end Formula

variable {α : Type} [Probability α]

/-- A statement writes a query or a clause. -/
theorem Statement.clauses_value_ne_nil {s : Statement} (hs : s.Lexical) {count : Nat}
    (h : (s.value count : Program α).queries = []) : (s.value count : Program α).clauses ≠ [] := by
  cases s with
  | query t => simp [value] at h
  | rule head body =>
    rw [value, Ne, List.map_eq_nil_iff]
    exact Formula.alternatives_value_ne_nil (.inl (hs.2.2.isConjunct)) _
  | _ => simp [value]

/-- A program of one probabilistic fact is written by one statement. -/
theorem exists_eq_chance {ss : List Statement} (hs : ∀ s ∈ ss, s.Lexical) {q : α} {a : Term}
    (h : programOf 0 ss = ⟨[.chance q a], []⟩) :
    ∃ p head, ss = [.chance p head] ∧ head.term.value 0 = a := by
  cases ss with
  | nil => cases congrArg Program.clauses h
  | cons s ss =>
    rw [List.forall_mem_cons] at hs
    have hqueries := List.append_eq_nil_iff.1 (congrArg Program.queries h)
    have hclauses : (s.value 0 : Program α).clauses ++ _ = [.chance q a] := congrArg Program.clauses h
    obtain ⟨c, cs, hc⟩ := List.exists_cons_of_ne_nil (s.clauses_value_ne_nil hs.1 hqueries.1)
    rw [hc, List.cons_append, List.cons.injEq, List.append_eq_nil_iff] at hclauses
    obtain ⟨rfl, rfl, hrest⟩ := hclauses
    -- a second statement would write something
    obtain rfl : ss = [] := by
      cases ss with
      | nil => rfl
      | cons s' ss =>
        have hne := s'.clauses_value_ne_nil (hs.2 s' List.mem_cons_self)
          (List.append_eq_nil_iff.1 hqueries.2).1
        exact absurd (List.append_eq_nil_iff.1 hrest).1 hne
    cases s with
    | chance p head =>
      rw [Statement.value, List.cons.injEq, Clause.chance.injEq] at hc
      exact ⟨p, head, rfl, hc.1.2⟩
    | query t => simp [Statement.value] at hc
    | rule head body =>
      have hm : Clause.chance q a ∈ ((Statement.rule head body).value 0 : Program α).clauses := by simp [hc]
      obtain ⟨literals, -, hl⟩ := List.mem_map.1 hm
      cases hl
    | fact head => simp [Statement.value] at hc

/-- A text of one probabilistic fact is a layout of it. -/
theorem exists_writesFact_of_ofText {text : String} {q : α} {a : Term}
    (h : Program.ofText text = .ok ⟨[.chance q a], []⟩) :
    ∃ front back p w, WritesFact text.toList front back p w ∧ w.Fits ∧ w.value 0 = a := by
  obtain ⟨ss, hw, ha, hp⟩ := Program.exists_writes_of_ofText h
  obtain ⟨p, head, rfl, rfl⟩ := exists_eq_chance hw.2 hp
  obtain ⟨hc, hfits⟩ := (Statement.admissible_chance_iff.1 (ha _ List.mem_cons_self)).1
  obtain ⟨front, back, hfact⟩ := hw.exists_writesFact hc
  exact ⟨front, back, p, head.term, hfact, hfits, rfl⟩

end TimedInference.Syntax
