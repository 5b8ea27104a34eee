import TimedInference.Proofs.Syntax.Statements

/-!
# Where statements begin

A double colon is the second token of its statement, so the token before it is the first one
(`exists_chance_of_separator`).  Hence a line that begins with a probability and a double colon begins a
statement, whatever stands on the lines before (`split_before_fact`), and a line that is known to be a
statement is read as this statement (`split_after_lines`).
-/

namespace TimedInference.Syntax

/-! ## Double colons -/

theorem WrittenTerm.separator_not_mem_tokens {t : WrittenTerm} (h : t.Lexical) :
    "::".toList ∉ t.tokens :=
  fun hm => (isPart_of_mem_tokens h _ hm).colon_not_mem (by decide)

/-- Only probabilistic facts write a double colon. -/
theorem Statement.exists_eq_chance_of_separator_mem {s : Statement} (h : s.Lexical)
    (hm : "::".toList ∈ s.tokens) : ∃ p head, s = .chance p head := by
  have hm : "::".toList ∈ s.words := by
    rcases List.mem_append.1 hm with hm | hm
    · exact hm
    · exact absurd hm (by decide)
  cases s with
  | chance p head => exact ⟨p, head, rfl⟩
  | query t =>
    simp only [words, List.mem_cons, List.mem_append, List.not_mem_nil, or_false] at hm
    rcases hm with hm | hm | hm | hm
    · exact absurd hm (by decide)
    · exact absurd hm (by decide)
    · exact absurd hm (WrittenTerm.separator_not_mem_tokens h)
    · exact absurd hm (by decide)
  | rule head body =>
    simp only [words, List.mem_cons, List.mem_append] at hm
    rcases hm with hm | hm | hm
    · exact absurd hm (WrittenTerm.separator_not_mem_tokens h.1)
    · exact absurd hm (by decide)
    · exact absurd (by decide) (Formula.isPart_of_mem_bodyTokens h.2.2 _ hm).colon_not_mem
  | fact head => exact absurd hm (WrittenTerm.separator_not_mem_tokens h.1)

/-- A double colon is the second token of its statement, which is a probabilistic fact. -/
theorem Statement.eq_chance_of_separator {s : Statement} (h : s.Lexical) {us vs : List Token}
    (e : s.tokens = us ++ "::".toList :: vs) :
    ∃ p head, s = .chance p head ∧ us = [p] ∧ vs = head.term.tokens ++ [['.']] := by
  obtain ⟨p, head, rfl⟩ := exists_eq_chance_of_separator_mem h (by simp [e])
  have e' : p :: "::".toList :: (head.term.tokens ++ [['.']]) = us ++ "::".toList :: vs := e
  cases us with
  | nil =>
    -- a probability has no colon
    rw [List.nil_append, List.cons.injEq] at e'
    have hp := h.1.colon_not_mem
    rw [e'.1] at hp
    exact absurd (by decide) hp
  | cons u us =>
    cases us with
    | nil =>
      rw [List.singleton_append, List.cons.injEq, List.cons.injEq] at e'
      exact ⟨p, head, rfl, by rw [e'.1], e'.2.2.symm⟩
    | cons v us =>
      -- a term has no double colon
      rw [List.cons_append, List.cons_append, List.cons.injEq, List.cons.injEq] at e'
      have hm : "::".toList ∈ head.term.tokens ++ [['.']] := by
        rw [e'.2.2]
        simp
      rcases List.mem_append.1 hm with hm | hm
      · exact absurd hm (WrittenTerm.separator_not_mem_tokens h.2)
      · exact absurd hm (by decide)

/-- A double colon is the second token of a probabilistic fact, and other statements stand before and after. -/
theorem exists_chance_of_separator {ss : List Statement} (hs : ∀ s ∈ ss, s.Lexical) {us vs : List Token}
    (e : ss.flatMap Statement.tokens = us ++ "::".toList :: vs) :
    ∃ ss₁ p h ss₂, ss = ss₁ ++ .chance p h :: ss₂ ∧ us = ss₁.flatMap Statement.tokens ++ [p] ∧
      vs = h.term.tokens ++ [['.']] ++ ss₂.flatMap Statement.tokens := by
  induction ss generalizing us with
  | nil => simp at e
  | cons s ss ih =>
    rw [List.forall_mem_cons] at hs
    rw [List.flatMap_cons, List.append_eq_append_iff] at e
    rcases e with ⟨us', rfl, e⟩ | ⟨xs, hx, e⟩
    · -- the statement ends before
      obtain ⟨ss₁, p, h, ss₂, rfl, rfl, hvs⟩ := ih hs.2 e
      exact ⟨s :: ss₁, p, h, ss₂, rfl, by rw [List.flatMap_cons, List.append_assoc], hvs⟩
    · cases xs with
      | nil =>
        -- no statement begins with a double colon
        have hfirst : ss.flatMap Statement.tokens = [] ++ "::".toList :: vs := e.symm
        obtain ⟨ss₁, p, h, ss₂, -, hp, -⟩ := ih hs.2 hfirst
        simp at hp
      | cons x xs =>
        obtain ⟨rfl, rfl⟩ := List.cons.inj e
        obtain ⟨p, h, rfl, rfl, rfl⟩ := Statement.eq_chance_of_separator hs.1 hx
        exact ⟨[], p, h, ss, rfl, rfl, rfl⟩

/-! ## The front of a text -/

/-- Neither white space nor a comment begins inside a token. -/
theorem Plain.solid_of_mem {t : Token} (h : Plain t) {c : Char} (hc : c ∈ t) :
    (isSpace c || c = '%') = false := by
  simpa using h.2 c hc

/-- White space and comments do not begin with anything else. -/
theorem FinalGap.eq_nil {c : Char} {cs gap rest : List Char} (hc : (isSpace c || c = '%') = false)
    (e : c :: cs = gap ++ rest) (h : FinalGap gap) : gap = [] := by
  have hsolid : isSpace c = false ∧ c ≠ '%' := by simpa using hc
  cases gap with
  | nil => rfl
  | cons x gap =>
    rw [List.cons_append, List.cons.injEq] at e
    rw [FinalGap, ← e.1, endsInside?, hsolid.1, if_neg Bool.false_ne_true, if_neg hsolid.2] at h
    simp at h

/-- A text that begins with neither white space nor a comment begins with its first token. -/
theorem LaidOut.exists_cons {ts : List Token} {c : Char} {cs : List Char}
    (hc : (isSpace c || c = '%') = false) (h : LaidOut ts (c :: cs)) :
    ∃ t ts' rest, ts = t :: ts' ∧ c :: cs = t ++ rest ∧ LaidOut ts' rest := by
  obtain ⟨xs, g, e, hx, hg⟩ := h
  cases ts with
  | nil =>
    obtain rfl : xs = [] := hx
    rw [List.nil_append] at e
    have hnil := hg.eq_nil hc (show c :: cs = g ++ [] by rw [e, List.append_nil])
    rw [hnil] at e
    simp at e
  | cons t ts =>
    obtain ⟨gap, rest, rfl, hgap, hr⟩ := hx
    have e' : c :: cs = gap ++ (t ++ (rest ++ g)) := by
      rw [e]
      simp only [List.append_assoc]
    obtain rfl := hgap.final.eq_nil hc e'
    exact ⟨t, ts, rest ++ g, rfl, e', rest, g, rfl, hr, hg⟩

/-- The tokens of an empty text. -/
theorem LaidOut.eq_nil {ts : List Token} (hne : ∀ t ∈ ts, t ≠ []) (h : LaidOut ts []) : ts = [] := by
  obtain ⟨xs, g, e, hx, -⟩ := h
  obtain ⟨rfl, -⟩ := List.append_eq_nil_iff.1 e.symm
  have := hx.length_le hne
  exact List.length_eq_zero_iff.1 (Nat.le_zero.1 this)

/-- White space and comments in front belong to no token. -/
theorem LaidOut.of_gap {ts : List Token} (hp : ∀ t ∈ ts, Plain t) {g rest : List Char} (hg : Gap g)
    (h : LaidOut ts (g ++ rest)) : LaidOut ts rest := by
  obtain ⟨xs, final, e, hx, hfinal⟩ := h
  cases ts with
  | nil =>
    obtain rfl : xs = [] := hx
    rw [List.nil_append] at e
    rw [← e, FinalGap, endsInside?_append, hg] at hfinal
    exact ⟨[], rest, rfl, rfl, hfinal⟩
  | cons t ts =>
    rw [List.forall_mem_cons] at hp
    obtain ⟨gap, more, rfl, hgap, hm⟩ := hx
    have e' : g ++ rest = gap ++ (t ++ (more ++ final)) := by
      rw [e]
      simp only [List.append_assoc]
    rcases List.append_eq_append_iff.1 e' with ⟨gap', rfl, hrest⟩ | ⟨front, hfront, htoken⟩
    · -- the token comes later
      rw [Gap, endsInside?_append, hg] at hgap
      refine ⟨gap' ++ (t ++ more), final, ?_, ⟨gap', more, rfl, hgap, hm⟩, hfinal⟩
      rw [hrest]
      simp only [List.append_assoc]
    · -- the token begins with neither white space nor a comment
      rw [hfront, Gap, endsInside?_append, hgap, Option.bind_some] at hg
      obtain rfl : front = [] := by
        obtain ⟨x, t, rfl⟩ := List.exists_cons_of_ne_nil hp.1.1
        exact FinalGap.eq_nil (hp.1.solid_of_mem List.mem_cons_self) htoken (Gap.final hg)
      rw [List.nil_append] at htoken
      refine ⟨t ++ more, final, ?_, ⟨[], more, rfl, gap_nil, hm⟩, hfinal⟩
      rw [← htoken, List.append_assoc]

/-- A double colon in front is a token. -/
theorem LaidOut.exists_cons_separator {ts : List Token} (ht : ∀ t ∈ ts, IsToken t) {cs : List Char}
    (h : LaidOut ts (':' :: ':' :: cs)) : ∃ ts', ts = "::".toList :: ts' ∧ LaidOut ts' cs := by
  obtain ⟨t, ts, rest, rfl, e, hrest⟩ := h.exists_cons (by decide)
  rw [List.forall_mem_cons] at ht
  obtain ⟨x, t, rfl⟩ := List.exists_cons_of_ne_nil ht.1.plain.1
  rw [List.cons_append, List.cons.injEq] at e
  obtain ⟨rfl, e⟩ := e
  rcases ht.1.eq_of_colon_mem (by simp) with hu | hu
  · rw [show "::".toList = [':', ':'] from rfl, List.cons.injEq] at hu
    rw [hu.2, List.singleton_append, List.cons.injEq] at e
    rw [← e.2] at hrest
    exact ⟨ts, by rw [hu.2]; rfl, hrest⟩
  · rw [show ":-".toList = [':', '-'] from rfl, List.cons.injEq] at hu
    rw [hu.2] at e
    simp at e

/-- A token does not go on from a run of characters into what separates the run from a double colon. -/
theorem IsToken.exists_append_of_run {t : Token} (ht : IsToken t) {c : Char} (hc : c ≠ ':')
    {cs gap rest more : List Char} (hg : Gap gap)
    (e : c :: cs ++ (gap ++ ':' :: ':' :: rest) = t ++ more) :
    ∃ cs', c :: cs = t ++ cs' ∧ more = cs' ++ (gap ++ ':' :: ':' :: rest) := by
  rcases List.append_eq_append_iff.1 e with ⟨as, rfl, has⟩ | ⟨cs', hcs', hmore⟩
  · cases as with
    | nil => exact ⟨[], by simp, has.symm⟩
    | cons x as =>
      -- what follows in the token would be white space, a comment or the double colon
      have hx : x ∈ c :: cs ++ x :: as := by simp
      obtain rfl := hg.final.eq_nil (ht.plain.solid_of_mem hx) has.symm
      obtain rfl : ':' = x := (List.cons.inj has).1
      rcases ht.eq_of_colon_mem hx with hu | hu
      · exact absurd (List.cons.inj hu).1 hc
      · exact absurd (List.cons.inj hu).1 hc
  · exact ⟨cs', hcs', hmore⟩

/-- A zero in front of a double colon is a token, and so is the double colon. -/
theorem LaidOut.exists_separator {ts : List Token} (ht : ∀ t ∈ ts, IsToken t) {cs : List Char}
    (h : LaidOut ts ('0' :: ':' :: ':' :: cs)) : ∃ ts', ts = ['0'] :: "::".toList :: ts' := by
  obtain ⟨t, ts, more, rfl, e, hmore⟩ := h.exists_cons (by decide)
  rw [List.forall_mem_cons] at ht
  have e' : ['0'] ++ ([] ++ ':' :: ':' :: cs) = t ++ more := e
  obtain ⟨cs', hcs', rfl⟩ := ht.1.exists_append_of_run (by decide) gap_nil e'
  obtain ⟨rfl, rfl⟩ : t = ['0'] ∧ cs' = [] := by
    rcases List.append_eq_singleton_iff.1 hcs'.symm with ⟨rfl, -⟩ | h
    · exact absurd rfl ht.1.plain.1
    · exact h
  obtain ⟨us, rfl, -⟩ := hmore.exists_cons_separator ht.2
  exact ⟨us, rfl⟩

/-! ## Lines -/

theorem isToken_of_mem_flatMap {ss : List Statement} (hs : ∀ s ∈ ss, s.Lexical) {t : Token}
    (ht : t ∈ ss.flatMap Statement.tokens) : IsToken t := by
  obtain ⟨s, hm, ht⟩ := List.mem_flatMap.1 ht
  exact s.isToken_of_mem_tokens (hs s hm) t ht

/-- What stands on the lines before a line that begins with a zero and a double colon is a whole text of
whole statements. -/
theorem split_before_fact {ss : List Statement} (hs : ∀ s ∈ ss, s.Lexical) {xs cs : List Char}
    (h : LaidOut (ss.flatMap Statement.tokens) (xs ++ '\n' :: '0' :: ':' :: ':' :: cs)) :
    ∃ ss₁ ss₂, ss = ss₁ ++ ss₂ ∧ LaidOut (ss₁.flatMap Statement.tokens) xs ∧
      LaidOut (ss₂.flatMap Statement.tokens) ('0' :: ':' :: ':' :: cs) := by
  have ht {t : Token} (ht : t ∈ ss.flatMap Statement.tokens) := isToken_of_mem_flatMap hs ht
  obtain ⟨us, vs, e, hu, hv⟩ := h.split fun t hm => (ht hm).plain.newline_not_mem
  obtain ⟨vs', hvs⟩ := hv.exists_separator fun t hm => ht (by simp [e, hm])
  -- the token before the double colon begins a statement
  have hcolon : ss.flatMap Statement.tokens = (us ++ [['0']]) ++ "::".toList :: vs' := by
    rw [e, hvs, List.append_assoc]
    rfl
  obtain ⟨ss₁, p, head, rest, rfl, hus, -⟩ := exists_chance_of_separator hs hcolon
  obtain ⟨rfl, -⟩ := List.append_singleton_inj.1 hus
  rw [List.flatMap_append, List.append_cancel_left_eq] at e
  rw [← e] at hv
  exact ⟨ss₁, _, rfl, hu, hv⟩

/-- Where a statement stands in front, it is the first one, up to its places. -/
theorem split_after_statement {s : Statement} (hs : s.Lexical) (hc : s.HasCompoundHead)
    {ss : List Statement} (hss : ∀ s ∈ ss, s.Lexical) (hcs : ∀ s ∈ ss, s.HasCompoundHead)
    {text rest : List Char} (ht : Tight s.tokens text)
    (h : LaidOut (ss.flatMap Statement.tokens) (text ++ rest)) :
    ∃ s' ss', ss = s' :: ss' ∧ s'.unplaced = s.unplaced ∧
      LaidOut (ss'.flatMap Statement.tokens) rest := by
  -- the text begins with the first token of the statement
  obtain ⟨w, ws, hw⟩ := List.exists_cons_of_ne_nil s.tokens_ne_nil
  have hplain := s.plain_of_mem_tokens hs w (by simp [hw])
  obtain ⟨x, xs, hx⟩ := List.exists_cons_of_ne_nil hplain.1
  have hsolid : (isSpace x || x = '%') = false := hplain.solid_of_mem (by simp [hx])
  obtain ⟨cs, htext⟩ : ∃ cs, text ++ rest = x :: cs := by
    rw [hw] at ht
    obtain ⟨more, rfl, -⟩ := ht
    exact ⟨xs ++ more ++ rest, by rw [hx]; rfl⟩
  cases ss with
  | nil =>
    rw [htext] at h
    obtain ⟨t, ts, -, e, -⟩ := h.exists_cons hsolid
    simp at e
  | cons s' ss' =>
    rw [List.forall_mem_cons] at hss hcs
    obtain ⟨ys, g, e, hy, hg⟩ := h
    rw [List.flatMap_cons] at hy
    obtain ⟨ys₁, ys₂, rfl, hy₁, hy₂⟩ := laid_append_iff.1 hy
    obtain ⟨gap, body, rfl, hgap, hbody⟩ := hy₁.exists_tight s'.tokens_ne_nil
    have e' : text ++ rest = gap ++ (body ++ (ys₂ ++ g)) := by
      rw [e]
      simp only [List.append_assoc]
    obtain rfl := hgap.final.eq_nil hsolid (htext.symm.trans e')
    obtain ⟨hunplaced, rfl⟩ := statement_unique hs hc hss.1 hcs.1 ht hbody e'
    exact ⟨s', ss', rfl, hunplaced.symm, ys₂, g, rfl, hy₂, hg⟩

/-- Where lines stand in front that are known to be statements, these are the first ones, up to their
places. -/
theorem split_after_lines {ds : List (Statement × List Char)}
    (hd : ∀ d ∈ ds, d.1.Lexical ∧ d.1.HasCompoundHead ∧ Tight d.1.tokens d.2)
    {ss : List Statement} (hss : ∀ s ∈ ss, s.Lexical) (hcs : ∀ s ∈ ss, s.HasCompoundHead)
    {rest : List Char}
    (h : LaidOut (ss.flatMap Statement.tokens) (ds.flatMap (fun d => d.2 ++ ['\n']) ++ rest)) :
    ∃ ss₁ ss₂, ss = ss₁ ++ ss₂ ∧ ss₁.map Statement.unplaced = ds.map (·.1.unplaced) ∧
      LaidOut (ss₂.flatMap Statement.tokens) rest := by
  induction ds generalizing ss with
  | nil => exact ⟨[], ss, rfl, rfl, h⟩
  | cons d ds ih =>
    rw [List.forall_mem_cons] at hd
    have hfront : LaidOut (ss.flatMap Statement.tokens)
        (d.2 ++ '\n' :: (ds.flatMap (fun d => d.2 ++ ['\n']) ++ rest)) := by
      simpa only [List.flatMap_cons, List.append_assoc, List.cons_append, List.nil_append] using h
    obtain ⟨s, ss', rfl, hunplaced, hrest⟩ :=
      split_after_statement hd.1.1 hd.1.2.1 hss hcs hd.1.2.2 hfront
    rw [List.forall_mem_cons] at hss hcs
    have hline := hrest.of_gap (g := ['\n']) (fun t ht => (isToken_of_mem_flatMap hss.2 ht).plain) rfl
    obtain ⟨ss₁, ss₂, rfl, hmap, hlast⟩ := ih hd.2 hss.2 hcs.2 hline
    refine ⟨s :: ss₁, ss₂, rfl, ?_, hlast⟩
    rw [List.map_cons, List.map_cons, hunplaced, hmap]

end TimedInference.Syntax
