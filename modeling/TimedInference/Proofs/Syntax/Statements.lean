import TimedInference.Proofs.Syntax.Complete

/-!
# Texts of statements

Every layout of a statement is read as this statement, whatever follows its point (`reads_statement`), and
a statement that is read is written by the text that is taken (`statement_sound`): a query is tried first,
so nothing else is read where a query stands.  A text is therefore read exactly when statements write it,
and as these up to their places (`readStatements_sound`, `readStatements_complete`).
-/

namespace TimedInference.Syntax

open Reader

/-! ## Statements -/

theorem reads_head {fuel : Nat} {h : WrittenHead} (hh : h.term.Lexical) {text rest : List Char}
    (hl : Tight h.term.tokens text) (hn : text.length < fuel)
    (hr : Before [')', ',', ';', '.', ':'] rest) :
    (head fuel).Reads (text ++ rest) (Like WrittenHead.unplaced h) rest := by
  refine reads_offset.bind fun o _ => (reads_term hh hl hn hr).bind fun t ht => .pure ?_
  show (⟨0, t.unplaced⟩ : WrittenHead) = ⟨0, h.term.unplaced⟩
  rw [ht]

theorem reads_query {fuel : Nat} {t : WrittenTerm} (ht : t.Lexical) {text : List Char}
    (hl : Tight ("query".toList :: ['('] :: (t.tokens ++ [[')']])) text) (hn : text.length < fuel)
    (rest : List Char) :
    (query fuel).Reads (text ++ rest) (Like Statement.unplaced (.query t)) rest := by
  obtain ⟨more, rfl, hm⟩ := hl
  simp only [List.append_assoc, List.length_append] at hn ⊢
  refine .named ((reads_exactly _).bind fun _ _ => ?_)
  refine (reads_parenthesised (P := Like WrittenTerm.unplaced t) Statement.query
    (WrittenTerm.plainTokens ht) hm (fun body rest' hb hlen hclose => ?_) rest).imp ?_
  · exact reads_term ht hb (by omega) (hclose.mono (by decide))
  · rintro _ ⟨u, hu, rfl⟩
    show Statement.query u.unplaced = Statement.query t.unplaced
    rw [hu]

/-- A text that begins with a name begins with the word of queries only if the name does. -/
theorem query_prefix {f r : List Char} (hr : ∀ y, r.head? = some y → isNameChar y = false)
    (h : "query".toList <+: f ++ r) : "query".toList <+: f := by
  rcases List.prefix_or_prefix_of_prefix h (List.prefix_append f r) with h' | ⟨e, he⟩
  · exact h'
  · cases e with
    | nil => exact ⟨[], by rw [← he, List.append_nil, List.append_nil]⟩
    | cons y e =>
      rw [← he, List.prefix_append_right_inj] at h
      obtain ⟨more, rfl⟩ := h
      have hy : y ∈ "query".toList := by
        rw [← he]
        simp
      have hname := List.all_eq_true.1 (show "query".toList.all isNameChar = true by decide) y hy
      rw [hr y rfl] at hname
      simp at hname

/-- No query is read where a longer name stands. -/
theorem failsOn_query_name {fuel : Nat} {x : Char} (hx : isNameChar x = true) (more : List Char) :
    (query fuel).FailsOn ("query".toList ++ x :: more) := by
  refine .named ((reads_exactly _).bind_failsOn fun _ _ => FailsOn.bind ?_)
  refine failsOn_spaced gap_nil (fun y hy => ?_) (failsOn_exactly_head ?_)
  · obtain rfl : x = y := by simpa using hy
    exact plain_of_class (by decide) hx
  · rintro rfl
    exact absurd hx (by decide)

/-- The argument of a query is not read where a second argument follows, since the query would have to end
there. -/
theorem failsOn_pair {fuel : Nat} {t u : WrittenTerm} {us : List WrittenTerm}
    (ht : t.Lexical) {text : List Char}
    (hl : Laid (["(".toList] ++
      (separatedTokens "," WrittenTerm.tokens (t :: u :: us) ++ [")".toList])) text)
    (hn : text.length < fuel) (rest : List Char) :
    (do mark "("; let t ← spaced (term fuel); mark ")"; return .query t : Reader Statement).FailsOn
      (text ++ rest) := by
  obtain ⟨os, xs, rfl, ho, hx⟩ := laid_append_iff.1 hl
  obtain ⟨as, cs, rfl, ha, -⟩ := laid_append_iff.1 hx
  obtain ⟨bs, ds, rfl, hb, hd⟩ := laid_append_iff.1 ha
  simp only [List.append_assoc, List.length_append] at hn ⊢
  have hcomma := Laid.before (show Laid (([','] : Token) :: _) ds from hd) (cs ++ rest)
  refine (reads_mark (m := "(") (plain_singleton (by decide)) ho _).bind_failsOn fun _ _ => ?_
  refine Reads.bind_failsOn (reads_spaced_plain (WrittenTerm.plainTokens ht) hb
    fun body hbody hlen => reads_term ht hbody (by omega) (hcomma.mono (by decide))) fun _ _ => ?_
  exact FailsOn.bind (failsOn_mark (m := ")") rfl hcomma (by decide) (by decide))

/-- No query is read where a functor stands that is not its word. -/
theorem failsOn_query_functor {fuel : Nat} {f : String} (hf : IsFunctor f.toList) (hword : f ≠ "query")
    {more : List Char} (hmore : ∀ y, more.head? = some y → isNameChar y = false) :
    (query fuel).FailsOn (f.toList ++ more) := by
  by_cases hp : "query".toList <+: f.toList ++ more
  · obtain ⟨extra, hextra⟩ := query_prefix hmore hp
    obtain ⟨c, name, hc, -, hname⟩ := hf
    cases extra with
    | nil =>
      rw [List.append_nil, String.toList_inj] at hextra
      exact absurd hextra.symm hword
    | cons x extra =>
      have hx : x ∈ name := by
        rw [hc, show "query".toList = 'q' :: "uery".toList from rfl, List.cons_append,
          List.cons.injEq] at hextra
        rw [← hextra.2]
        simp
      rw [← hextra, List.append_assoc]
      exact failsOn_query_name (List.all_eq_true.1 hname x hx) _
  · exact .named (failsOn_exactly hp).bind

/-- No query is read where the word of queries has no argument or more than one. -/
theorem failsOn_query_args {fuel : Nat} {ts : List WrittenTerm} (hts : ∀ t ∈ ts, t.Lexical)
    (hq : ¬ Statement.IsQuery (.compound "query" ts)) {more rest : List Char}
    (hl : Tight (WrittenTerm.compound "query" ts).tokens ("query".toList ++ more))
    (hn : more.length < fuel) (hr : Before ['.', ':'] rest) :
    (query fuel).FailsOn ("query".toList ++ (more ++ rest)) := by
  refine .named ((reads_exactly _).bind_failsOn fun _ _ => ?_)
  cases ts with
  | nil =>
    obtain ⟨nothing, he, rfl⟩ := hl
    obtain rfl : more = [] := by simpa using he
    exact FailsOn.bind (failsOn_mark (m := "(") rfl hr (by decide) (by decide))
  | cons t ts =>
    obtain ⟨u, us, rfl⟩ := List.exists_cons_of_ne_nil (show ts ≠ [] by
      rintro rfl
      exact hq rfl)
    rw [WrittenTerm.tokens_compound_cons] at hl
    obtain ⟨more', he, hm⟩ := hl
    obtain rfl : more = more' := List.append_cancel_left he
    exact failsOn_pair (hts t (by simp)) hm hn rest

/-- The text of a compound begins with its functor, and no name goes on after it. -/
theorem WrittenTerm.exists_functor_end {f : String} {ts : List WrittenTerm} {text rest : List Char}
    (hl : Tight (compound f ts).tokens text) (hr : Before ['.', ':'] rest) :
    ∃ more, text = f.toList ++ more ∧ ∀ y, (more ++ rest).head? = some y → isNameChar y = false := by
  cases ts with
  | nil =>
    obtain ⟨more, rfl, rfl⟩ := hl
    exact ⟨[], rfl, hr.not_class (by decide)⟩
  | cons t ts =>
    obtain ⟨more, rfl, hm⟩ := hl
    exact ⟨more, rfl, (Laid.before hm rest).not_class (by decide)⟩

/-- Where a clause begins that has a compound head which is no query, no query is read. -/
theorem failsOn_query {fuel : Nat} {f : String} {ts : List WrittenTerm}
    (ht : (WrittenTerm.compound f ts).Lexical) (hq : ¬ Statement.IsQuery (.compound f ts))
    {text rest : List Char} (hl : Tight (WrittenTerm.compound f ts).tokens text)
    (hn : text.length < fuel) (hr : Before ['.', ':'] rest) :
    (query fuel).FailsOn (text ++ rest) := by
  obtain ⟨hf, hts⟩ := ht
  rw [WrittenTerm.allLexical_iff] at hts
  obtain ⟨more, rfl, hmore⟩ := WrittenTerm.exists_functor_end hl hr
  rw [List.append_assoc]
  by_cases hword : f = "query"
  · subst hword
    rw [List.length_append] at hn
    exact failsOn_query_args hts hq hl (by omega) hr
  · exact failsOn_query_functor hf hword hmore

/-- Where a name stands, no probabilistic fact is read. -/
theorem failsOn_chance {fuel : Nat} {f : List Char} (hf : IsFunctor f) (more : List Char) :
    (chance fuel).FailsOn (f ++ more) := by
  obtain ⟨c, name, rfl, hc, -⟩ := hf
  refine .named (FailsOn.bind (.named (FailsOn.bind (failsOn_run1 fun y hy => ?_))))
  obtain rfl : c = y := by simpa using hy
  exact (isLower_disjoint hc).2.1

theorem reads_chance {fuel : Nat} {p : List Char} {h : WrittenHead} (hp : IsProbability p)
    (hh : h.term.Lexical) {text rest : List Char}
    (hl : Tight (p :: "::".toList :: h.term.tokens) text) (hn : text.length < fuel)
    (hr : Before ['.'] rest) :
    (chance fuel).Reads (text ++ rest) (Like Statement.unplaced (.chance p h)) rest := by
  obtain ⟨more, rfl, hm⟩ := hl
  obtain ⟨cs, ts, rfl, hc, ht⟩ := laid_append_iff.1
    (show Laid (["::".toList] ++ h.term.tokens) more from hm)
  have hcolon := Laid.before (show Laid [[':', ':']] cs from hc) (ts ++ rest)
  simp only [List.append_assoc, List.length_append] at hn hcolon ⊢
  refine .named ((reads_probability hp hcolon).bind fun q hq => ?_)
  have hplain : Plain "::".toList := plain_pair (c := ':') (d := ':') (by decide) (by decide)
  refine (reads_mark hplain hc _).bind fun _ _ => ?_
  refine Reads.bind (reads_spaced_plain (WrittenTerm.plainTokens hh) ht fun body hb hlen =>
    reads_head hh hb (by omega) (hr.mono (by decide))) fun h' hh' => .pure ?_
  show Statement.chance q h'.unplaced = Statement.chance p h.unplaced
  rw [hq, hh']

theorem reads_rule {fuel : Nat} {h : WrittenHead} {body : Formula WrittenTerm}
    (hh : h.term.Lexical) (hb : body.IsBody) {text rest : List Char}
    (hl : Tight (h.term.tokens ++ ":-".toList :: body.bodyTokens) text) (hn : text.length < fuel)
    (hr : Before ['.'] rest) :
    (rule fuel).Reads (text ++ rest) (Like Statement.unplaced (.rule h body)) rest := by
  obtain ⟨xs, more, rfl, hx, hm⟩ := (tight_append_iff h.term.tokens_ne_nil).1 hl
  obtain ⟨cs, bs, rfl, hc, hb'⟩ := laid_append_iff.1
    (show Laid ([":-".toList] ++ body.bodyTokens) more from hm)
  have hcolon := Laid.before (show Laid [[':', '-']] cs from hc) (bs ++ rest)
  have hcs : 1 ≤ cs.length := hc.length_le (by simp)
  have hxs := hx.laid.length_le fun t ht => ((WrittenTerm.plainTokens hh).2 t ht).1
  have hpos := List.length_pos_iff.2 h.term.tokens_ne_nil
  simp only [List.append_assoc, List.length_append] at hn hcolon ⊢
  refine .named ((reads_head hh hx (by omega) (hcolon.mono (by decide))).bind fun h' hh' => ?_)
  have hplain : Plain ":-".toList := plain_pair (c := ':') (d := '-') (by decide) (by decide)
  refine (reads_mark hplain hc _).bind fun _ _ => ?_
  refine Reads.bind (reads_spaced_plain (Formula.plainTokens_body hb) hb' fun text' ht' hlen =>
    reads_disjunction fuel body text' rest hb ht' (by omega) (hr.mono (by decide)))
      fun f hf => .pure ?_
  show Statement.rule h'.unplaced f.unplaced = Statement.rule h.unplaced body.unplaced
  rw [hh', hf]

/-- Where only a head stands, no rule is read. -/
theorem failsOn_rule {fuel : Nat} {h : WrittenHead} (hh : h.term.Lexical) {text rest : List Char}
    (hl : Tight h.term.tokens text) (hn : text.length < fuel) (hr : Before ['.'] rest) :
    (rule fuel).FailsOn (text ++ rest) := by
  refine .named ((reads_head hh hl hn (hr.mono (by decide))).bind_failsOn fun _ _ => ?_)
  exact FailsOn.bind (failsOn_mark (m := ":-") rfl hr (by decide) (by decide))

/-- Where a clause begins that has a compound head which is no query, neither a query nor a probabilistic
fact is read. -/
theorem failsOn_query_chance {fuel : Nat} {t : WrittenTerm} (ht : t.Lexical)
    (hc : ∃ f ts, t = .compound f ts) (hq : ¬ Statement.IsQuery t) {text rest : List Char}
    (hl : Tight t.tokens text) (hn : text.length < fuel) (hr : Before ['.', ':'] rest) :
    (query fuel).FailsOn (text ++ rest) ∧ (chance fuel).FailsOn (text ++ rest) := by
  obtain ⟨f, ts, rfl⟩ := hc
  refine ⟨failsOn_query ht hq hl hn hr, ?_⟩
  obtain ⟨more, rfl⟩ := WrittenTerm.exists_functor hl
  rw [List.append_assoc]
  exact failsOn_chance ht.1 _

/-- Where a probability stands, no query is read. -/
theorem failsOn_query_of_isProbability {fuel : Nat} {p : List Char} (hp : IsProbability p)
    (more : List Char) : (query fuel).FailsOn (p ++ more) := by
  obtain ⟨whole, fraction, exponent, rfl, hw, -, -⟩ := hp
  obtain ⟨d, ds, rfl⟩ := List.exists_cons_of_ne_nil hw.1
  have hd := List.all_eq_true.1 hw.2 d (by simp)
  simp only [List.append_assoc, List.cons_append]
  refine .named (failsOn_exactly_head ?_).bind
  rintro rfl
  exact absurd hd (by decide)

/-- Up to its point, a statement is read by the reader for its kind, and the readers tried before fail. -/
theorem reads_words {fuel : Nat} {s : Statement} (hs : s.Lexical) (hc : s.HasCompoundHead)
    {text rest : List Char} (hl : Tight s.words text) (hn : text.length < fuel)
    (hr : Before ['.'] rest) :
    (query fuel <|> chance fuel <|> rule fuel <|> fact fuel).Reads (text ++ rest)
      (Like Statement.unplaced s) rest := by
  cases s with
  | query t => exact .orElse_left (reads_query hs hl hn rest)
  | chance p h =>
    refine .orElse_right ?_ (.orElse_left (reads_chance hs.1 hs.2 hl hn hr))
    obtain ⟨more, rfl, -⟩ := hl
    rw [List.append_assoc]
    exact failsOn_query_of_isProbability hs.1 _
  | rule h body =>
    have hread := reads_rule hs.1 hs.2.2 hl hn hr
    obtain ⟨xs, more, rfl, hx, hm⟩ := (tight_append_iff h.term.tokens_ne_nil).1 hl
    have hcolon := Laid.before (show Laid ([':', '-'] :: _) more from hm) rest
    rw [List.length_append] at hn
    rw [List.append_assoc] at hread ⊢
    have hxs : xs.length < fuel := by omega
    obtain ⟨hquery, hchance⟩ :=
      failsOn_query_chance hs.1 hc hs.2.1 hx hxs (hcolon.mono (by decide))
    exact .orElse_right hquery (.orElse_right hchance (.orElse_left hread))
  | fact h =>
    obtain ⟨hquery, hchance⟩ := failsOn_query_chance hs.1 hc hs.2 hl hn (hr.mono (by decide))
    refine .orElse_right hquery (.orElse_right hchance (.orElse_right (failsOn_rule hs.1 hl hn hr) ?_))
    refine .named ((reads_head hs.1 hl hn (hr.mono (by decide))).bind fun h' hh' => .pure ?_)
    show Statement.fact h'.unplaced = Statement.fact h.unplaced
    rw [hh']

/-- Every layout of a statement is read as this statement, up to its places, whatever follows. -/
theorem reads_statement {fuel : Nat} {s : Statement} (hs : s.Lexical) (hc : s.HasCompoundHead)
    {text : List Char} (hl : Tight s.tokens text) (hn : text.length < fuel) (rest : List Char) :
    (statement fuel).Reads (text ++ rest) (Like Statement.unplaced s) rest := by
  obtain ⟨xs, ds, rfl, hx, hd⟩ := (tight_append_iff s.words_ne_nil).1 hl
  have hpoint := Laid.before (show Laid [['.']] ds from hd) rest
  rw [List.length_append] at hn
  rw [List.append_assoc]
  refine (reads_words hs hc hx (by omega) hpoint).bind fun s' hs' => ?_
  exact (reads_mark (m := ".") (plain_singleton (by decide)) hd rest).bind fun _ _ => .pure hs'

/-! ## Statements are written by what is taken -/

/-- A head that would be a query is read only where a query is read. -/
theorem not_isQuery {fuel : Nat} {c c' : Cursor} {t : WrittenTerm} (hlen : c.rest.length < fuel)
    (hq : (query fuel).Fails c) (ht : t.Lexical) (h : Takes c c' t.tokens) :
    ¬ Statement.IsQuery t := by
  intro hquery
  cases t with
  | compound f ts =>
    cases ts with
    | nil => exact absurd hquery id
    | cons t ts =>
      cases ts with
      | cons u us => exact absurd hquery id
      | nil =>
        obtain rfl : f = "query" := hquery
        obtain ⟨text, hrest, hl⟩ := h
        have hlex : t.Lexical := ht.2.1
        have hn : text.length < fuel := by
          rw [hrest, List.length_append] at hlen
          omega
        have hl' : Tight ("query".toList :: ['('] :: (t.tokens ++ [[')']])) text := by
          simpa only [WrittenTerm.tokens, WrittenTerm.moreTokens, List.nil_append] using hl
        obtain ⟨s, o, hs, -⟩ := reads_query hlex hl' hn c'.rest c.offset
        rw [← hrest] at hs
        exact hs.not_fails hq
  | _ => exact absurd hquery id

/-- A statement that is read is written by the text that is taken. -/
theorem statement_sound {fuel : Nat} {c c' : Cursor} {s : Statement}
    (hlen : c.rest.length < fuel) (h : (statement fuel).Gives c s c') :
    s.Lexical ∧ Takes c c' s.tokens := by
  obtain ⟨s', c₁, hs, h⟩ := gives_bind_iff.1 h
  obtain ⟨_, c₂, hm, h⟩ := gives_bind_iff.1 h
  obtain ⟨rfl, rfl⟩ := gives_pure_iff.1 h
  suffices hw : s.Lexical ∧ Takes c c₁ s.words from
    ⟨hw.1, hw.2.append s.words_ne_nil (mark_sound (by decide) hm)⟩
  rw [gives_orElse_iff, gives_orElse_iff, gives_orElse_iff] at hs
  rcases hs with hs | ⟨hq, hs | ⟨-, hs | ⟨-, hs⟩⟩⟩
  · obtain ⟨t, rfl, ht, htake⟩ := query_sound hs
    exact ⟨ht, htake⟩
  · obtain ⟨p, hd, rfl, hp, hh, htake⟩ := chance_sound hs
    exact ⟨⟨hp, hh⟩, htake⟩
  · obtain ⟨hd, body, rfl, hh, hb, htake, c₃, hhead⟩ := rule_sound hs
    exact ⟨⟨hh, not_isQuery hlen hq hh (head_sound fuel c hd c₃ hhead).2, hb⟩, htake⟩
  · obtain ⟨hd, rfl, hh, htake, -⟩ := fact_sound hs
    exact ⟨⟨hh, not_isQuery hlen hq hh htake⟩, htake⟩

/-! ## Whole texts -/

theorem spaced_statement_sound {fuel : Nat} {c c' : Cursor} {s : Statement}
    (hlen : c.rest.length < fuel) (h : (spaced (statement fuel)).Gives c s c') :
    s.Lexical ∧ TakesSpaced c c' s.tokens := by
  obtain ⟨_, c₁, hb, hs⟩ := gives_bind_iff.1 h
  have hskip : skipBlanks false c.offset c.rest = c₁ := congrArg Prod.snd (Option.some.inj hb)
  obtain ⟨g, hg, -, -⟩ := skipBlanks_sound hskip
  have hlen₁ : c₁.rest.length < fuel := by
    rw [hg, List.length_append] at hlen
    omega
  have hlex := (statement_sound hlen₁ hs).1
  obtain ⟨t, ts, ht⟩ := List.exists_cons_of_ne_nil s.tokens_ne_nil
  have hplain := s.plain_of_mem_tokens hlex t (by simp [ht])
  rw [ht]
  refine ⟨hlex, spaced_sound hplain.1 h fun c₂ hc₂ h₂ => ?_⟩
  rw [← ht]
  exact (statement_sound (by omega) h₂).2

theorem statements_sound {fuel n : Nat} {c c' : Cursor} {ss : List Statement}
    (hlen : c.rest.length < fuel) (h : (many (spaced (statement fuel)) n).Gives c ss c') :
    (∀ s ∈ ss, s.Lexical) ∧ TakesSpaced c c' (ss.flatMap Statement.tokens) := by
  induction n generalizing c ss with
  | zero =>
    obtain ⟨rfl, rfl⟩ := gives_pure_iff.1 h
    exact ⟨by simp, .nil c'⟩
  | succ n ih =>
    rcases gives_many_succ h with ⟨rfl, rfl⟩ | ⟨s, rest, c₁, rfl, hs, hr⟩
    · exact ⟨by simp, .nil c'⟩
    · obtain ⟨hlex, htake⟩ := spaced_statement_sound hlen hs
      have hlen₁ : c₁.rest.length < fuel := by
        obtain ⟨text, hrest, -⟩ := htake
        rw [hrest, List.length_append] at hlen
        omega
      obtain ⟨hlexs, htakes⟩ := ih hlen₁ hr
      rw [List.forall_mem_cons, List.flatMap_cons]
      exact ⟨⟨hlex, hlexs⟩, htake.append htakes⟩

theorem readStatements_eq_ok_iff {text : List Char} {ss : List Statement} :
    readStatements text = .ok ss ↔
      ∃ c, (program (text.length + 1)).Gives ⟨0, text⟩ ss c := by
  unfold readStatements Reader.Gives
  simp only
  cases (program (text.length + 1) ⟨0, text⟩).result with
  | none => simp
  | some r =>
    simp only [Except.ok.injEq, Option.some.injEq]
    constructor
    · rintro rfl
      exact ⟨r.2, rfl⟩
    · rintro ⟨c, rfl⟩
      rfl

/-- A text is written by the statements that are read from it. -/
theorem readStatements_sound {text : List Char} {ss : List Statement}
    (h : readStatements text = .ok ss) : Writes text ss := by
  obtain ⟨c, h⟩ := readStatements_eq_ok_iff.1 h
  obtain ⟨ss', c₁, hs, h⟩ := gives_bind_iff.1 (gives_named_iff.1 h)
  obtain ⟨_, c₂, he, h⟩ := gives_bind_iff.1 h
  obtain ⟨rfl, rfl⟩ := gives_pure_iff.1 h
  obtain ⟨_, c₃, hb, he⟩ := gives_bind_iff.1 he
  have hskip : skipBlanks false c₁.offset c₁.rest = c₃ := congrArg Prod.snd (Option.some.inj hb)
  have hempty : c₃.rest = [] := (gives_endOfInput_iff.1 he).1
  have hlen : (⟨0, text⟩ : Cursor).rest.length < text.length + 1 := Nat.lt_succ_self text.length
  obtain ⟨hlex, text', hrest, hl⟩ := statements_sound hlen hs
  obtain ⟨g, hg, hfinal, -⟩ := skipBlanks_sound hskip
  rw [hempty, List.append_nil] at hg
  refine ⟨⟨text', g, ?_, hl, hfinal⟩, hlex⟩
  rw [← hg]
  exact hrest

/-- Statements are read one after the other, and then what comes after them. -/
theorem reads_statements {fuel : Nat} {ss : List Statement} (hs : ∀ s ∈ ss, s.Lexical)
    (hc : ∀ s ∈ ss, s.HasCompoundHead) {text rest rest' : List Char}
    (hl : Laid (ss.flatMap Statement.tokens) text) (hn : text.length < fuel) {n : Nat}
    {P : List Statement → Prop} (h : (many (spaced (statement fuel)) n).Reads rest P rest') :
    (many (spaced (statement fuel)) (n + ss.length)).Reads (text ++ rest)
      (fun as => ∃ bs cs, as = bs ++ cs ∧ Like (List.map Statement.unplaced) ss bs ∧ P cs) rest' := by
  induction ss generalizing text with
  | nil =>
    obtain rfl : text = [] := hl
    exact h.imp fun as has => ⟨[], as, rfl, rfl, has⟩
  | cons s ss ih =>
    rw [List.forall_mem_cons] at hs hc
    rw [List.flatMap_cons] at hl
    obtain ⟨xs, ys, rfl, hx, hy⟩ := laid_append_iff.1 hl
    rw [List.length_append] at hn
    rw [List.append_assoc]
    have hfirst : (spaced (statement fuel)).Reads (xs ++ (ys ++ rest)) (Like Statement.unplaced s)
        (ys ++ rest) :=
      reads_spaced_plain ⟨s.tokens_ne_nil, s.plain_of_mem_tokens hs.1⟩ hx fun body hb hlen =>
        reads_statement hs.1 hc.1 hb (by omega) _
    refine (hfirst.many (ih hs.2 hc.2 hy (by omega))).imp fun as has => ?_
    obtain ⟨a, as', rfl, ha, bs, cs, rfl, hbs, hcs⟩ := has
    refine ⟨a :: bs, cs, rfl, ?_, hcs⟩
    show (a :: bs).map Statement.unplaced = (s :: ss).map Statement.unplaced
    rw [List.map_cons, List.map_cons, ha, hbs]

/-- No statement is read from white space and comments alone. -/
theorem failsOn_spaced_statement {fuel : Nat} {g : List Char} (hg : FinalGap g) :
    (spaced (statement fuel)).FailsOn g := by
  have hterm : (term fuel).FailsOn [] := by
    cases fuel with
    | zero => exact fun o => rfl
    | succ fuel => exact fun o => rfl
  have hhead : (head fuel).FailsOn [] := reads_offset.bind_failsOn fun _ _ => hterm.bind
  have hempty : (statement fuel).FailsOn [] := by
    refine FailsOn.bind (.orElse ?_ (.orElse ?_ (.orElse ?_ ?_)))
    · exact fun o => rfl
    · exact fun o => rfl
    · exact .named hhead.bind
    · exact .named hhead.bind
  intro o
  refine fails_bind_iff.2 (.inr ⟨(), ⟨o + g.length, []⟩, ?_, hempty _⟩)
  show some ((), skipBlanks false o g) = _
  rw [skipBlanks_final o hg]

/-- From a text that statements write, these are read, up to their places. -/
theorem readStatements_complete {text : List Char} {ss : List Statement} (h : Writes text ss)
    (hc : ∀ s ∈ ss, s.HasCompoundHead) :
    ∃ ss', readStatements text = .ok ss' ∧
      ss'.map Statement.unplaced = ss.map Statement.unplaced := by
  obtain ⟨⟨xs, g, rfl, hl, hg⟩, hs⟩ := h
  generalize hfuel : (xs ++ g).length + 1 = fuel
  rw [List.length_append] at hfuel
  have hcount : ss.length ≤ fuel := by
    have htokens : ss.length ≤ (ss.flatMap Statement.tokens).length := by
      clear hl hs hc
      induction ss with
      | nil => simp
      | cons s ss ih =>
        have hpos := List.length_pos_iff.2 s.tokens_ne_nil
        rw [List.flatMap_cons, List.length_append, List.length_cons]
        omega
    have := hl.length_le fun t ht => by
      obtain ⟨s, hsm, ht⟩ := List.mem_flatMap.1 ht
      exact (s.plain_of_mem_tokens (hs s hsm) t ht).1
    omega
  have hmany := reads_statements hs hc hl (by omega : xs.length < fuel)
    ((failsOn_spaced_statement hg).many (fuel - ss.length))
  rw [show fuel - ss.length + ss.length = fuel by omega] at hmany
  have hprogram : (program fuel).Reads (xs ++ g) (Like (List.map Statement.unplaced) ss) [] := by
    refine .named (hmany.bind fun as has => ?_)
    obtain ⟨bs, cs, rfl, hbs, rfl⟩ := has
    have hend : (spaced endOfInput).Reads g (fun _ => True) [] := by
      intro o
      refine ⟨(), o + g.length, gives_bind_iff.2 ⟨(), ⟨o + g.length, []⟩, ?_, rfl⟩, trivial⟩
      show some ((), skipBlanks false o g) = _
      rw [skipBlanks_final o hg]
    exact hend.bind fun _ _ => .pure (by rwa [List.append_nil])
  obtain ⟨ss', o, hgives, hlike⟩ := hprogram 0
  refine ⟨ss', readStatements_eq_ok_iff.2 ⟨⟨o, []⟩, ?_⟩, hlike⟩
  rwa [List.length_append, hfuel]

/-- A text begins with one statement only, and in one way. -/
theorem statement_unique {s s' : Statement} (hs : s.Lexical) (hc : s.HasCompoundHead)
    (hs' : s'.Lexical) (hc' : s'.HasCompoundHead) {xs ys xs' ys' : List Char}
    (hx : Tight s.tokens xs) (hx' : Tight s'.tokens xs') (he : xs ++ ys = xs' ++ ys') :
    s.unplaced = s'.unplaced ∧ ys = ys' := by
  have hlt : xs.length < xs.length + xs'.length + 1 := by omega
  have hlt' : xs'.length < xs.length + xs'.length + 1 := by omega
  have hr := reads_statement hs hc hx hlt ys
  have hr' := reads_statement hs' hc' hx' hlt' ys'
  rw [he] at hr
  obtain ⟨t, o, ht, hlike⟩ := hr 0
  obtain ⟨t', o', ht', hlike'⟩ := hr' 0
  obtain ⟨rfl, hcur⟩ := ht.unique ht'
  exact ⟨hlike.symm.trans hlike', congrArg Cursor.rest hcur⟩

end TimedInference.Syntax
