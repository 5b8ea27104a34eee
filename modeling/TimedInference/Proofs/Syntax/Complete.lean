import TimedInference.Proofs.Syntax.Places
import TimedInference.Proofs.Syntax.Sound

/-!
# What is written is read

Every layout of the tokens of a term or a body is read as this term or body, up to the places it keeps
(`reads_term`, `reads_disjunction`).  What comes after it has to be looked at only as far as the next mark
(`Before`), which ends a name or a number and tells a reader of lists where to stop.
-/

namespace TimedInference.Syntax

open Reader

variable {α β : Type}

/-! ## What comes next -/

/-- The marks that may come after a term. -/
def marks : List Char := ['(', ')', ',', ';', '.', ':']

/-- The next token begins with one of the characters. -/
def Before (next : List Char) (rest : List Char) : Prop :=
  ∃ g m more, rest = g ++ m :: more ∧ Gap g ∧ m ∈ next

section

variable {next next' rest : List Char}

/-- What may come next may be widened. -/
theorem Before.mono (h : Before next rest) (hs : next ⊆ next') : Before next' rest := by
  obtain ⟨g, m, more, rfl, hg, hm⟩ := h
  exact ⟨g, m, more, rfl, hg, hs hm⟩

/-- What is laid out begins, after a gap, with the first character of its first token. -/
theorem Laid.before {m : Char} {t : List Char} {ts : List Token} {text : List Char}
    (h : Laid ((m :: t) :: ts) text) (rest : List Char) : Before [m] (text ++ rest) := by
  obtain ⟨g, more, rfl, hg, -⟩ := h
  exact ⟨g, m, t ++ (more ++ rest), by simp, hg, by simp⟩

/-- The first character of what comes next belongs to white space, a comment or a mark. -/
theorem Before.head {x : Char} (h : Before next rest) (hx : rest.head? = some x) :
    isSpace x = true ∨ x = '%' ∨ x ∈ next := by
  obtain ⟨g, m, more, rfl, hg, hm⟩ := h
  cases g with
  | nil =>
    obtain rfl : m = x := by simpa using hx
    exact .inr (.inr hm)
  | cons y g =>
    obtain rfl : y = x := by simpa using hx
    by_cases hs : isSpace y = true
    · exact .inl hs
    · by_cases hc : y = '%'
      · exact .inr (.inl hc)
      · simp [Gap, endsInside?, hs, hc] at hg

/-- No name and no number goes on in what comes next. -/
theorem Before.not_class {p : Char → Bool} (h : Before next rest)
    (hp : ([' ', '\t', '\r', '\n', '%'] ++ next).all (fun c => !p c) = true) :
    ∀ x, rest.head? = some x → p x = false := by
  intro x hx
  have hmem : x ∈ [' ', '\t', '\r', '\n', '%'] ++ next := by
    rcases h.head hx with hsp | rfl | hm
    · simp only [isSpace, Bool.or_eq_true, decide_eq_true_eq] at hsp
      rcases hsp with ((rfl | rfl) | rfl) | rfl <;> simp
    · simp
    · exact List.mem_append_right _ hm
  simpa using List.all_eq_true.1 hp x hmem

/-- No mark begins white space or a comment. -/
theorem solid_of_mem_marks {m : Char} (h : m ∈ marks) (more : List Char) : Solid (m :: more) := by
  intro x hx
  obtain rfl : m = x := by simpa using hx
  simp only [marks, List.mem_cons, List.not_mem_nil, or_false] at h
  rcases h with rfl | rfl | rfl | rfl | rfl | rfl <;> decide

end

/-! ## Blanks and marks -/

/-- White space and comments are skipped before what is read. -/
theorem reads_spaced {p : Reader α} {P : α → Prop} {g body rest : List Char} (hg : Gap g)
    (hb : Solid body) (h : p.Reads body P rest) : (spaced p).Reads (g ++ body) P rest := by
  intro o
  obtain ⟨a, o', ha, hp⟩ := h (o + g.length)
  refine ⟨a, o', gives_bind_iff.2 ⟨(), ⟨o + g.length, body⟩, ?_, ha⟩, hp⟩
  show some ((), skipBlanks false o (g ++ body)) = _
  rw [skipBlanks_gap o hg hb]

/-- Skipping white space and comments does not help a reader that fails after them. -/
theorem failsOn_spaced {p : Reader α} {g body : List Char} (hg : Gap g) (hb : Solid body)
    (h : p.FailsOn body) : (spaced p).FailsOn (g ++ body) := by
  intro o
  refine fails_bind_iff.2 (.inr ⟨(), ⟨o + g.length, body⟩, ?_, h _⟩)
  show some ((), skipBlanks false o (g ++ body)) = _
  rw [skipBlanks_gap o hg hb]

/-- What begins with a plain token is read after white space and comments. -/
theorem reads_spaced_laid {p : Reader α} {P : α → Prop} {t : Token} {ts : List Token}
    {text rest : List Char} (ht : Plain t) (hl : Laid (t :: ts) text)
    (h : ∀ body, Tight (t :: ts) body → body.length ≤ text.length → p.Reads (body ++ rest) P rest) :
    (spaced p).Reads (text ++ rest) P rest := by
  obtain ⟨g, body, rfl, hg, hb⟩ := hl.exists_tight (List.cons_ne_nil t ts)
  rw [List.append_assoc]
  refine reads_spaced hg ?_ (h body hb ?_)
  · obtain ⟨more, rfl, -⟩ := hb
    rw [List.append_assoc]
    exact ht.solid _
  · rw [List.length_append]
    omega

/-- A mark is read after white space and comments. -/
theorem reads_mark {m : String} {text : List Char} (hm : Plain m.toList) (hl : Laid [m.toList] text)
    (rest : List Char) : (mark m).Reads (text ++ rest) (fun _ => True) rest := by
  refine reads_spaced_laid hm hl fun body hb _ => ?_
  obtain ⟨more, rfl, rfl⟩ := hb
  rw [List.append_nil]
  exact reads_exactly _

/-- A mark is not read where none of the next tokens begins like it. -/
theorem failsOn_mark {m : String} {c : Char} {cs : List Char} (hm : m.toList = c :: cs)
    {next rest : List Char} (hr : Before next rest) (hs : next ⊆ marks) (hc : c ∉ next) :
    (mark m).FailsOn rest := by
  obtain ⟨g, x, more, rfl, hg, hx⟩ := hr
  refine failsOn_spaced hg (solid_of_mem_marks (hs hx) more) (failsOn_exactly ?_)
  rw [hm]
  rintro ⟨ys, hy⟩
  rw [List.cons_append, List.cons.injEq] at hy
  rw [hy.1] at hc
  exact hc hx

/-! ## Tokens -/

/-- A name is read up to the first character that cannot belong to it. -/
theorem reads_name {construct : Construct} {p : Char → Bool} {x : Char} {xs : List Char}
    (hx : p x = true) (hxs : xs.all isNameChar = true) {rest : List Char}
    (h : ∀ y, rest.head? = some y → isNameChar y = false) :
    (named construct do
      let first ← one p
      let rest ← run isNameChar
      return String.ofList (first :: rest)).Reads (x :: xs ++ rest)
        (· = String.ofList (x :: xs)) rest := by
  refine .named ((reads_one hx).bind fun a ha => (reads_run hxs h).bind fun as has => .pure ?_)
  rw [ha, has]

/-- A functor is read up to the first character that cannot belong to it. -/
theorem reads_functor {f : String} (hf : IsFunctor f.toList) {rest : List Char}
    (h : ∀ y, rest.head? = some y → isNameChar y = false) :
    functor.Reads (f.toList ++ rest) (· = f) rest := by
  obtain ⟨x, xs, hfx, hx, hxs⟩ := hf
  rw [hfx, ← String.ofList_toList (s := f), hfx]
  exact reads_name hx hxs h

/-- A variable is read up to the first character that cannot belong to it. -/
theorem reads_variableName {f : String} (hf : IsVariable f.toList) {rest : List Char}
    (h : ∀ y, rest.head? = some y → isNameChar y = false) :
    variableName.Reads (f.toList ++ rest) (· = f) rest := by
  obtain ⟨x, xs, hfx, hx, hxs⟩ := hf
  rw [hfx, ← String.ofList_toList (s := f), hfx]
  exact reads_name (p := fun c => c.isUpper || c = '_') hx hxs h

/-- The reader of variables fails before characters of other classes. -/
theorem failsOn_variableName {x : Char} {more : List Char} (h : (x.isUpper || x = '_') = false) :
    variableName.FailsOn (x :: more) := by
  refine .named (FailsOn.bind (failsOn_one fun y hy => ?_))
  obtain rfl : x = y := by simpa using hy
  exact h

/-- The sign and the digits of an integer are read, at any place. -/
theorem reads_integer {o : Nat} {negative : Bool} {ds : List Char} (hd : IsDigits ds)
    {rest : List Char} (h : ∀ y, rest.head? = some y → y.isDigit = false) :
    integer.Reads ((if negative then '-' :: ds else ds) ++ rest)
      (·.unplaced = (WrittenTerm.integer o negative ds).unplaced) rest := by
  refine .named (reads_offset.bind fun o' _ => ?_)
  have hds : (run1 Char.isDigit).Reads (ds ++ rest) (· = ds) rest := reads_run1 hd.1 hd.2 h
  cases negative with
  | true =>
    refine Reads.bind (m := ds ++ rest) (P := (· = true)) (.orDefault ?_) fun n hn => ?_
    · exact (reads_exactly ['-']).bind fun _ _ => .pure rfl
    · refine hds.bind fun as has => .pure ?_
      rw [hn, has]
      rfl
  | false =>
    refine Reads.bind (m := ds ++ rest) (P := (· = false)) (FailsOn.orDefault ?_ rfl) fun n hn => ?_
    · refine FailsOn.bind (failsOn_exactly ?_)
      obtain ⟨x, xs, rfl⟩ := List.exists_cons_of_ne_nil hd.1
      rintro ⟨ys, hy⟩
      rw [if_neg Bool.false_ne_true, List.cons_append, List.cons_append, List.cons.injEq] at hy
      have hx := List.all_eq_true.1 hd.2 x (by simp)
      rw [← hy.1] at hx
      exact absurd hx (by decide)
    · refine hds.bind fun as has => .pure ?_
      rw [hn, has]
      rfl

/-- Where no exponent and nothing after it belongs to a class, no text of both begins with it. -/
theorem exponent_head {p : Char → Bool} (hp : (p 'e' || p 'E') = false) {exponent rest : List Char}
    (he : IsExponent exponent) (hr : ∀ y, rest.head? = some y → p y = false) :
    ∀ y, (exponent ++ rest).head? = some y → p y = false := by
  intro y hy
  rw [Bool.or_eq_false_iff] at hp
  rcases he with rfl | ⟨e, sign, ds, rfl, he, -, -⟩
  · exact hr y hy
  · obtain rfl : e = y := by simpa using hy
    rcases he with rfl | rfl
    · exact hp.1
    · exact hp.2

/-- An exponent is read, also when there is none. -/
theorem reads_exponent {exponent : List Char} (h : IsExponent exponent) {rest : List Char}
    (hr : Before [':'] rest) :
    (orDefault (do
      let letter ← one fun c => c = 'e' || c = 'E'
      let sign ← orDefault (do let s ← one (fun c => c = '+' || c = '-'); return [s]) []
      let digits ← run1 Char.isDigit
      return letter :: (sign ++ digits)) []).Reads (exponent ++ rest) (· = exponent) rest := by
  have hdigit := hr.not_class (p := Char.isDigit) (by decide)
  rcases h with rfl | ⟨e, sign, ds, rfl, he, hs, hd⟩
  · exact FailsOn.orDefault (FailsOn.bind (failsOn_one
      (hr.not_class (p := fun c => c = 'e' || c = 'E') (by decide)))) rfl
  · have hletter : (decide (e = 'e') || decide (e = 'E')) = true := by
      rcases he with rfl | rfl <;> decide
    have hds : (run1 Char.isDigit).Reads (ds ++ rest) (· = ds) rest := reads_run1 hd.1 hd.2 hdigit
    refine .orDefault ((reads_one hletter).bind fun letter hl => ?_)
    refine Reads.bind (m := ds ++ rest) (P := (· = sign)) ?_ fun s hs' => ?_
    · show Reads _ (sign ++ ds ++ rest) _ _
      rw [List.append_assoc]
      rcases hs with rfl | rfl | rfl
      · refine FailsOn.orDefault (FailsOn.bind (failsOn_one fun y hy => ?_)) rfl
        obtain ⟨d, ds, rfl⟩ := List.exists_cons_of_ne_nil hd.1
        obtain rfl : d = y := by simpa using hy
        have hdd := List.all_eq_true.1 hd.2 d (by simp)
        rw [Bool.or_eq_false_iff, decide_eq_false_iff_not, decide_eq_false_iff_not]
        constructor
        · rintro rfl
          exact absurd hdd (by decide)
        · rintro rfl
          exact absurd hdd (by decide)
      · exact .orDefault ((reads_one (by decide)).bind fun s hs => .pure (by rw [hs]))
      · exact .orDefault ((reads_one (by decide)).bind fun s hs => .pure (by rw [hs]))
    · exact hds.bind fun as has => .pure (by rw [hl, hs', has])

/-- A fraction is read, also when there is none and no point comes next. -/
theorem reads_fraction {fraction : List Char} (h : IsFraction fraction) {rest : List Char}
    (hpoint : ∀ y, rest.head? = some y → decide (y = '.') = false)
    (hdigit : ∀ y, rest.head? = some y → y.isDigit = false) :
    (orDefault (do
      let point ← one (· = '.')
      let digits ← run1 Char.isDigit
      return point :: digits) []).Reads (fraction ++ rest) (· = fraction) rest := by
  rcases h with rfl | ⟨ds, rfl, hd⟩
  · exact FailsOn.orDefault (FailsOn.bind (failsOn_one hpoint)) rfl
  · refine .orDefault ((reads_one (by decide)).bind fun point hp => ?_)
    exact (reads_run1 hd.1 hd.2 hdigit).bind fun as has => .pure (by rw [hp, has])

/-- A probability is read up to the colons after it. -/
theorem reads_probability {p : List Char} (h : IsProbability p) {rest : List Char}
    (hr : Before [':'] rest) : probability.Reads (p ++ rest) (· = p) rest := by
  obtain ⟨whole, fraction, exponent, rfl, hw, hf, he⟩ := h
  have hdigit := exponent_head (by decide) he (hr.not_class (p := Char.isDigit) (by decide))
  have hpoint := exponent_head (by decide) he (hr.not_class (p := fun c => c = '.') (by decide))
  have hwhole : ∀ y, (fraction ++ (exponent ++ rest)).head? = some y → y.isDigit = false := by
    rcases hf with rfl | ⟨ds, rfl, -⟩
    · exact hdigit
    · intro y hy
      obtain rfl : '.' = y := by simpa using hy
      decide
  rw [List.append_assoc, List.append_assoc]
  refine .named ((reads_run1 hw.1 hw.2 hwhole).bind fun w hw' => ?_)
  refine (reads_fraction hf hpoint hdigit).bind fun f hf' => ?_
  refine (reads_exponent he hr).bind fun e he' => .pure ?_
  rw [hw', hf', he', List.append_assoc]

/-! ## Lists -/

/-- Values that are equal up to what a function forgets. -/
def Like (forget : α → β) (a b : α) : Prop := forget b = forget a

/-- There are tokens, and they are plain. -/
def PlainTokens (ts : List Token) : Prop := ts ≠ [] ∧ ∀ t ∈ ts, Plain t

/-- What writes plain tokens is read after white space and comments, when it is read without them. -/
theorem reads_spaced_plain {p : Reader α} {P : α → Prop} {ts : List Token} {text rest : List Char}
    (hts : PlainTokens ts) (hl : Laid ts text)
    (h : ∀ body, Tight ts body → body.length ≤ text.length → p.Reads (body ++ rest) P rest) :
    (spaced p).Reads (text ++ rest) P rest := by
  obtain ⟨hne, hplain⟩ := hts
  obtain ⟨t, ts, rfl⟩ := List.exists_cons_of_ne_nil hne
  exact reads_spaced_laid (hplain t (by simp)) hl h

/-- What stands before a closing parenthesis is read by a reader that reads it up to there. -/
theorem reads_closed {p : Reader α} {P : α → Prop} (f : α → β) {ts : List Token}
    (hts : PlainTokens ts) {text : List Char} (hl : Laid (ts ++ [[')']]) text)
    (h : ∀ body rest, Tight ts body → body.length < text.length → Before [')'] rest →
      p.Reads (body ++ rest) P rest) (rest : List Char) :
    (do let a ← spaced p; mark ")"; return f a : Reader β).Reads (text ++ rest)
      (fun b => ∃ a, P a ∧ f a = b) rest := by
  obtain ⟨bs, cs, rfl, hb, hc⟩ := laid_append_iff.1 hl
  have hcs : [[')']].length ≤ cs.length := hc.length_le (by simp)
  have hclose := Laid.before (show Laid [[')']] cs from hc) rest
  rw [List.length_singleton] at hcs
  rw [List.append_assoc]
  refine Reads.bind (reads_spaced_plain hts hb fun body hbody hlen => h body _ hbody ?_ hclose)
    fun a ha => ?_
  · rw [List.length_append]
    omega
  · refine (reads_mark (m := ")") (plain_singleton (by decide)) hc rest).bind fun _ _ => ?_
    exact .pure ⟨a, ha, rfl⟩

/-- What stands in parentheses is read by a reader that reads it up to the closing one. -/
theorem reads_parenthesised {p : Reader α} {P : α → Prop} (f : α → β) {ts : List Token}
    (hts : PlainTokens ts) {text : List Char} (hl : Laid (["(".toList] ++ (ts ++ [")".toList])) text)
    (h : ∀ body rest, Tight ts body → body.length < text.length → Before [')'] rest →
      p.Reads (body ++ rest) P rest) (rest : List Char) :
    (do mark "("; let a ← spaced p; mark ")"; return f a : Reader β).Reads (text ++ rest)
      (fun b => ∃ a, P a ∧ f a = b) rest := by
  obtain ⟨os, xs, rfl, ho, hx⟩ := laid_append_iff.1 hl
  rw [List.append_assoc]
  refine (reads_mark (m := "(") (plain_singleton (by decide)) ho _).bind fun _ _ => ?_
  refine reads_closed f hts hx (fun body rest' hb hlen hr => h body rest' hb ?_ hr) rest
  rw [List.length_append]
  omega

section

variable {p : Reader α} {tokens : α → List Token} {forget : α → β} {separator : String} {s : Char}
  {next : List Char}

/-- A list writes plain tokens when its members do. -/
theorem plainTokens_separated (hsep : Plain separator.toList) {as : List α} (hne : as ≠ [])
    (hts : ∀ a ∈ as, PlainTokens (tokens a)) : PlainTokens (separatedTokens separator tokens as) := by
  obtain ⟨a, as, rfl⟩ := List.exists_cons_of_ne_nil hne
  rw [List.forall_mem_cons] at hts
  refine ⟨List.append_ne_nil_of_left_ne_nil hts.1.1 _, fun t ht => ?_⟩
  rw [separatedTokens, List.mem_append, List.mem_flatMap] at ht
  rcases ht with ht | ⟨b, hb, ht⟩
  · exact hts.1.2 t ht
  · rcases List.mem_cons.1 ht with rfl | ht
    · exact hsep
    · exact (hts.2 b hb).2 t ht

/-- A list has no more members than its layout has characters, which bounds the repetition that reads
it. -/
theorem length_le_of_laid {as : List α} (hts : ∀ a ∈ as, PlainTokens (tokens a)) {text : List Char}
    (hl : Laid (as.flatMap fun b => [s] :: tokens b) text) : as.length ≤ text.length := by
  have hcount (as : List α) : as.length ≤ (as.flatMap fun b => [s] :: tokens b).length := by
    induction as with
    | nil => simp
    | cons a as ih =>
      rw [List.flatMap_cons, List.length_append, List.length_cons, List.length_cons]
      omega
  refine Nat.le_trans (hcount as) (hl.length_le fun t ht => ?_)
  obtain ⟨a, ha, ht⟩ := List.mem_flatMap.1 ht
  rcases List.mem_cons.1 ht with rfl | ht
  · simp
  · exact ((hts a ha).2 t ht).1

/-- What comes after one value of a list: a separator, or what comes after the list. -/
theorem before_more {as : List α} {text rest : List Char}
    (hl : Laid (as.flatMap fun b => [s] :: tokens b) text) (hr : Before next rest) :
    Before (s :: next) (text ++ rest) := by
  cases as with
  | nil =>
    obtain rfl : text = [] := hl
    exact hr.mono (List.subset_cons_self s next)
  | cons b as =>
    exact (Laid.before (show Laid (([s] : Token) :: _) text from hl) rest).mono (by simp)

/-- Further values are read after their separators. -/
theorem reads_more (hsep : separator.toList = [s]) (hs : s ∈ marks) (hnext : next ⊆ marks)
    (hsn : s ∉ next) {as : List α} {n : Nat}
    (h : ∀ a ∈ as, ∀ text rest, Tight (tokens a) text → text.length ≤ n → Before (s :: next) rest →
      p.Reads (text ++ rest) (Like forget a) rest)
    (hts : ∀ a ∈ as, PlainTokens (tokens a)) {text rest : List Char}
    (hl : Laid (as.flatMap fun b => [s] :: tokens b) text) (hn : text.length ≤ n)
    (hr : Before next rest) {fuel : Nat} (hf : as.length ≤ fuel) :
    (many (do mark separator; spaced p) fuel).Reads (text ++ rest)
      (Like (List.map forget) as) rest := by
  have hplain : Plain separator.toList := by
    rw [hsep]
    have hsolid := solid_of_mem_marks hs [] s rfl
    exact ⟨by simp, fun c hc => by rwa [List.mem_singleton.1 hc]⟩
  induction as generalizing text fuel with
  | nil =>
    obtain rfl : text = [] := hl
    refine ((FailsOn.bind (failsOn_mark hsep hr hnext hsn)).many fuel).imp fun bs hbs => ?_
    rw [hbs]
    rfl
  | cons a as ih =>
    rw [List.forall_mem_cons] at h hts
    rw [List.length_cons] at hf
    obtain ⟨fuel, rfl⟩ : ∃ k, fuel = k + 1 := ⟨fuel - 1, by omega⟩
    rw [List.flatMap_cons] at hl
    obtain ⟨xs, ys, rfl, hx, hy⟩ := laid_append_iff.1 hl
    obtain ⟨ms, zs, rfl, hm, hz⟩ := laid_append_iff.1 (show Laid ([[s]] ++ tokens a) xs from hx)
    simp only [List.length_append] at hn
    have hitem : (do mark separator; spaced p : Reader α).Reads
        (ms ++ (zs ++ (ys ++ rest))) (Like forget a) (ys ++ rest) := by
      refine (reads_mark hplain (by rwa [hsep]) _).bind fun _ _ => ?_
      refine reads_spaced_plain hts.1 hz fun body hb hlen => ?_
      exact h.1 body _ hb (by omega) (before_more hy hr)
    have hrest := ih h.2 hts.2 hy (by omega) (show as.length ≤ fuel by omega)
    rw [List.append_assoc, List.append_assoc]
    refine (hitem.many hrest).imp fun bs hbs => ?_
    obtain ⟨b, cs, rfl, hb, hcs⟩ := hbs
    show (b :: cs).map forget = (a :: as).map forget
    rw [List.map_cons, List.map_cons, hb, hcs]

/-- A list is read whose values are read up to the next separator or what comes after the list. -/
theorem reads_separated (hsep : separator.toList = [s]) (hs : s ∈ marks) (hnext : next ⊆ marks)
    (hsn : s ∉ next) {as : List α} {n : Nat}
    (h : ∀ a ∈ as, ∀ text rest, Tight (tokens a) text → text.length ≤ n → Before (s :: next) rest →
      p.Reads (text ++ rest) (Like forget a) rest)
    (hts : ∀ a ∈ as, PlainTokens (tokens a)) (hne : as ≠ []) {text rest : List Char}
    (hl : Tight (separatedTokens separator tokens as) text) (hn : text.length ≤ n)
    (hr : Before next rest) {fuel : Nat} (hf : n ≤ fuel) :
    (separated separator fuel p).Reads (text ++ rest)
      (Like (List.map forget) as) rest := by
  obtain ⟨a, as, rfl⟩ := List.exists_cons_of_ne_nil hne
  rw [List.forall_mem_cons] at h hts
  rw [separatedTokens, hsep] at hl
  obtain ⟨xs, ys, rfl, hx, hy⟩ := (tight_append_iff hts.1.1).1 hl
  have hcount := length_le_of_laid hts.2 hy
  rw [List.length_append] at hn
  rw [List.append_assoc]
  refine (h.1 xs _ hx (by omega) (before_more hy hr)).bind fun b hb => ?_
  refine (reads_more hsep hs hnext hsn h.2 hts.2 hy (by omega) hr (by omega)).bind fun bs hbs => .pure ?_
  show (b :: bs).map forget = (a :: as).map forget
  rw [List.map_cons, List.map_cons, hb, hbs]

end

/-! ## Terms -/

/-- Small letters begin neither variables nor integers. -/
theorem isLower_disjoint {x : Char} (h : x.isLower = true) :
    (x.isUpper || x = '_') = false ∧ x.isDigit = false ∧ x ≠ '-' := by
  refine ⟨?_, ?_, ?_⟩
  · rw [Bool.or_eq_false_iff, decide_eq_false_iff_not]
    refine ⟨?_, by rintro rfl; exact absurd h (by decide)⟩
    rw [← Bool.not_eq_true, isUpper_iff]
    rw [isLower_iff] at h
    omega
  · rw [← Bool.not_eq_true, isDigit_iff]
    rw [isLower_iff] at h
    omega
  · rintro rfl
    exact absurd h (by decide)

theorem isDigit_disjoint {x : Char} (h : x.isDigit = true) :
    (x.isUpper || x = '_') = false ∧ x ≠ '-' := by
  refine ⟨?_, by rintro rfl; exact absurd h (by decide)⟩
  rw [Bool.or_eq_false_iff, decide_eq_false_iff_not]
  refine ⟨?_, by rintro rfl; exact absurd h (by decide)⟩
  rw [← Bool.not_eq_true, isUpper_iff]
  rw [isDigit_iff] at h
  omega

/-- An integer begins with a digit or a minus. -/
theorem failsOn_integer {x : Char} {more : List Char} (hd : x.isDigit = false) (hm : x ≠ '-') :
    integer.FailsOn (x :: more) := by
  have hfail : (run1 Char.isDigit).FailsOn (x :: more) := failsOn_run1 fun y hy => by
    obtain rfl : x = y := by simpa using hy
    exact hd
  refine .named (reads_offset.bind_failsOn fun o _ => ?_)
  refine Reads.bind_failsOn (m := x :: more) (P := fun _ => True)
    (FailsOn.orDefault ?_ trivial) fun n _ => hfail.bind
  refine FailsOn.bind (failsOn_exactly ?_)
  rintro ⟨ys, hy⟩
  rw [List.cons_append, List.cons.injEq] at hy
  exact hm hy.1.symm

/-- Terms write plain tokens, and so do the constructs of bodies. -/
theorem WrittenTerm.plainTokens {t : WrittenTerm} (h : t.Lexical) : PlainTokens t.tokens :=
  ⟨t.tokens_ne_nil, fun tok ht => (isPart_of_mem_tokens h tok ht).plain⟩

/-- The text of a compound begins with its functor. -/
theorem WrittenTerm.exists_functor {f : String} {ts : List WrittenTerm} {text : List Char}
    (hl : Tight (compound f ts).tokens text) : ∃ more, text = f.toList ++ more := by
  cases ts with
  | nil =>
    obtain ⟨more, rfl, -⟩ := hl
    exact ⟨more, rfl⟩
  | cons t ts =>
    obtain ⟨more, rfl, -⟩ := hl
    exact ⟨more, rfl⟩

/-- No variable begins like an integer. -/
theorem failsOn_variableName_of_isDigits {negative : Bool} {ds : List Char} (hd : IsDigits ds)
    (rest : List Char) :
    variableName.FailsOn ((if negative then '-' :: ds else ds) ++ rest) := by
  obtain ⟨d, ds, rfl⟩ := List.exists_cons_of_ne_nil hd.1
  cases negative with
  | true => exact failsOn_variableName (by decide)
  | false =>
    have hdigit := List.all_eq_true.1 hd.2 d (by simp)
    exact failsOn_variableName (isDigit_disjoint hdigit).1

/-- No variable and no integer begins like a compound. -/
theorem failsOn_of_isFunctor {f : String} (hf : IsFunctor f.toList) {ts : List WrittenTerm}
    {text : List Char} (hl : Tight (WrittenTerm.compound f ts).tokens text) (rest : List Char) :
    variableName.FailsOn (text ++ rest) ∧ integer.FailsOn (text ++ rest) := by
  obtain ⟨x, xs, hx, hlower, -⟩ := hf
  obtain ⟨more, rfl⟩ := WrittenTerm.exists_functor hl
  obtain ⟨hvar, hdigit, hminus⟩ := isLower_disjoint hlower
  rw [hx]
  exact ⟨failsOn_variableName hvar, failsOn_integer hdigit hminus⟩

/-- The arguments of a compound are read when each of them is. -/
theorem reads_arguments {fuel : Nat} {ts : List WrittenTerm} (hne : ts ≠ [])
    (hts : ∀ t ∈ ts, t.Lexical) {text : List Char}
    (hl : Laid (["(".toList] ++ (separatedTokens "," WrittenTerm.tokens ts ++ [")".toList])) text)
    (hf : text.length ≤ fuel)
    (h : ∀ t ∈ ts, ∀ body rest, Tight t.tokens body → body.length < fuel →
      Before [',', ')'] rest → (term fuel).Reads (body ++ rest) (Like WrittenTerm.unplaced t) rest)
    (rest : List Char) :
    (do
      mark "("
      let args ← spaced (separated "," fuel (term fuel))
      mark ")"
      return args : Reader (List WrittenTerm)).Reads (text ++ rest)
        (Like (List.map WrittenTerm.unplaced) ts) rest := by
  have hcomma : Plain ",".toList := plain_singleton (by decide)
  have hplain := fun t ht => WrittenTerm.plainTokens (hts t ht)
  refine (reads_parenthesised (P := Like (List.map WrittenTerm.unplaced) ts) id
    (plainTokens_separated hcomma hne hplain) hl (fun body rest' hbody hlen hclose => ?_)
      rest).imp ?_
  · refine reads_separated (show ",".toList = [','] from rfl) (by decide)
      (show [')'] ⊆ marks by decide) (by decide) (n := body.length)
      (fun t ht text' rest'' hl' hlen' hr' => ?_) hplain hne hbody (Nat.le_refl _) hclose (by omega)
    exact h t ht text' rest'' hl' (by omega) hr'
  · rintro _ ⟨args, hargs, rfl⟩
    exact hargs

/-- A compound is read when its functor ends before the arguments and these are read. -/
theorem reads_compound {p : Reader (List WrittenTerm)} {f : String} (hf : IsFunctor f.toList)
    {ts : List WrittenTerm} {text rest : List Char}
    (hend : ∀ x, text.head? = some x → isNameChar x = false)
    (h : (orDefault p []).Reads text (Like (List.map WrittenTerm.unplaced) ts) rest) :
    (do
      let name ← functor
      let args ← orDefault p []
      return WrittenTerm.compound name args : Reader WrittenTerm).Reads (f.toList ++ text)
        (Like WrittenTerm.unplaced (.compound f ts)) rest := by
  refine (reads_functor hf hend).bind fun name hn => h.bind fun args ha => .pure ?_
  rw [hn]
  show WrittenTerm.compound f (WrittenTerm.unplacedAll args) =
    WrittenTerm.compound f (WrittenTerm.unplacedAll ts)
  rw [WrittenTerm.unplacedAll_eq_map, WrittenTerm.unplacedAll_eq_map, ha]

/-- Every layout of a term is read as this term, up to its places. -/
theorem reads_term {fuel : Nat} {t : WrittenTerm} (ht : t.Lexical) {text rest : List Char}
    (hl : Tight t.tokens text) (hf : text.length < fuel)
    (hr : Before [')', ',', ';', '.', ':'] rest) :
    (term fuel).Reads (text ++ rest) (Like WrittenTerm.unplaced t) rest := by
  -- the induction is on the bound, as arguments are shorter than their compound
  induction fuel generalizing t text rest with
  | zero => omega
  | succ fuel ih =>
    rw [term]
    refine .named ?_
    have hname := hr.not_class (p := isNameChar) (by decide)
    have hdigit := hr.not_class (p := Char.isDigit) (by decide)
    cases t with
    | var x =>
      obtain ⟨more, rfl, rfl⟩ := hl
      rw [List.append_nil]
      refine ((reads_variableName ht hname).bind fun name h => .pure ?_).orElse_left
      rw [h]
      rfl
    | integer o negative ds =>
      obtain ⟨more, rfl, rfl⟩ := hl
      rw [List.append_nil]
      refine .orElse_right ?_ (Reads.orElse_left (reads_integer ht hdigit))
      exact FailsOn.bind (failsOn_variableName_of_isDigits ht rest)
    | compound f ts =>
      obtain ⟨hfunctor, hts⟩ := ht
      rw [WrittenTerm.allLexical_iff] at hts
      obtain ⟨hvar, hint⟩ := failsOn_of_isFunctor hfunctor hl rest
      refine .orElse_right hvar.bind (.orElse_right hint (.named ?_))
      cases ts with
      | nil =>
        obtain ⟨more, rfl, rfl⟩ := hl
        rw [List.append_nil]
        refine reads_compound hfunctor hname (FailsOn.orDefault ?_ rfl)
        exact FailsOn.bind (failsOn_mark (m := "(") rfl hr (by decide) (by decide))
      | cons t ts =>
        rw [WrittenTerm.tokens_compound_cons] at hl
        obtain ⟨xs, ys, rfl, ⟨nothing, rfl, rfl⟩, hy⟩ := (tight_append_iff (by simp)).1 hl
        have hopen := (Laid.before (show Laid ((['('] : Token) :: _) ys from hy) rest).not_class
          (p := isNameChar) (by decide)
        simp only [List.append_nil, List.append_assoc, List.length_append] at hf ⊢
        refine reads_compound hfunctor hopen (.orDefault ?_)
        refine reads_arguments (List.cons_ne_nil t ts) hts hy (by omega)
          (fun u hu body rest' hb hlen hr' => ?_) rest
        exact ih (hts u hu) hb hlen (hr'.mono (by decide))

/-! ## Bodies -/

/-- No term begins like a negated atom or a group. -/
theorem WrittenTerm.head_ne {t : WrittenTerm} (h : t.Lexical) {text : List Char}
    (hl : Tight t.tokens text) : ∃ x more, text = x :: more ∧ x ≠ '\\' ∧ x ≠ '(' := by
  have hclass {p : Char → Bool} (hp : (p '\\' || p '(') = false) {x : Char} (hx : p x = true) :
      x ≠ '\\' ∧ x ≠ '(' := by
    rw [Bool.or_eq_false_iff] at hp
    constructor
    · rintro rfl
      simp [hp.1] at hx
    · rintro rfl
      simp [hp.2] at hx
  cases t with
  | var x =>
    obtain ⟨more, rfl, -⟩ := hl
    obtain ⟨c, cs, hc, hup, -⟩ := h
    exact ⟨c, cs ++ more, by rw [hc]; rfl, hclass (p := fun c => c.isUpper || c = '_') (by decide) hup⟩
  | integer o negative ds =>
    obtain ⟨more, rfl, -⟩ := hl
    obtain ⟨d, ds, rfl⟩ := List.exists_cons_of_ne_nil h.1
    have hd := List.all_eq_true.1 h.2 d (by simp)
    cases negative with
    | true => exact ⟨'-', (d :: ds) ++ more, rfl, by decide, by decide⟩
    | false => exact ⟨d, ds ++ more, rfl, hclass (by decide) hd⟩
  | compound f ts =>
    obtain ⟨more, rfl⟩ := exists_functor hl
    obtain ⟨c, cs, hc, hlower, -⟩ := h.1
    exact ⟨c, cs ++ more, by rw [hc]; rfl, hclass (by decide) hlower⟩

/-- A fixed text is not read where another character comes first. -/
theorem failsOn_exactly_head {m x : Char} {ms more : List Char} (h : x ≠ m) :
    (exactly (m :: ms)).FailsOn (x :: more) := by
  refine failsOn_exactly ?_
  rintro ⟨ys, hy⟩
  rw [List.cons_append, List.cons.injEq] at hy
  exact h hy.1.symm

theorem Formula.plainTokens_conjunct {f : Formula WrittenTerm} (h : f.IsConjunct) :
    PlainTokens f.tokens :=
  ⟨tokens_ne_nil_of_isConjunct h, fun tok ht => (isPart_of_mem_tokens (.inl h) tok ht).plain⟩

theorem Formula.plainTokens_conjunction {f : Formula WrittenTerm} (h : f.IsConjunction) :
    PlainTokens f.tokens :=
  ⟨tokens_ne_nil_of_isConjunction h, fun tok ht => (isPart_of_mem_tokens (.inr h) tok ht).plain⟩

theorem Formula.plainTokens_body {f : Formula WrittenTerm} (h : f.IsBody) :
    PlainTokens f.bodyTokens :=
  ⟨bodyTokens_ne_nil h, fun tok ht => (isPart_of_mem_bodyTokens h tok ht).plain⟩

/-- A reader of bodies reads every layout of a body up to a length. -/
def ReadsBodies (inner : Reader (Formula WrittenTerm)) (length : Nat) : Prop :=
  ∀ f text rest, Formula.IsBody f → Tight f.bodyTokens text → text.length + 1 < length →
    Before [')', '.'] rest → inner.Reads (text ++ rest) (Like Formula.unplaced f) rest

/-- Every layout of a conjunct is read as this conjunct, when bodies in parentheses are. -/
theorem reads_conjunct {fuel : Nat} {inner : Reader (Formula WrittenTerm)}
    (hi : ReadsBodies inner fuel) {f : Formula WrittenTerm} (hf : f.IsConjunct)
    {text rest : List Char} (hl : Tight f.tokens text) (hn : text.length < fuel)
    (hr : Before [',', ';', ')', '.'] rest) :
    (conjunct fuel inner).Reads (text ++ rest) (Like Formula.unplaced f) rest := by
  have hterm {t : WrittenTerm} (ht : t.Lexical) {text : List Char} (hl : Tight t.tokens text)
      (hn : text.length < fuel) :
      (term fuel).Reads (text ++ rest) (Like WrittenTerm.unplaced t) rest :=
    reads_term ht hl hn (hr.mono (by decide))
  cases f with
  | holds t =>
    obtain ⟨x, more, hx, hx₁, hx₂⟩ := WrittenTerm.head_ne hf hl
    refine .orElse_right ?_ (.orElse_right ?_ ?_)
    · rw [hx]
      exact .named (failsOn_exactly_head hx₁).bind
    · rw [hx]
      exact .named (failsOn_exactly_head hx₂).bind
    · refine (hterm hf hl hn).bind fun u hu => .pure ?_
      show Formula.holds u.unplaced = Formula.holds t.unplaced
      rw [hu]
  | fails t =>
    obtain ⟨more, rfl, hm⟩ := hl
    refine .orElse_left (.named ?_)
    rw [List.append_assoc]
    rw [List.length_append] at hn
    refine (reads_exactly _).bind fun _ _ => ?_
    refine Reads.bind (reads_spaced_plain (WrittenTerm.plainTokens hf) hm fun body hb hlen =>
      hterm hf hb (by omega)) fun u hu => .pure ?_
    show Formula.fails u.unplaced = Formula.fails t.unplaced
    rw [hu]
  | every fs => exact absurd hf id
  | some fs =>
    have hbody : Formula.IsBody (.some fs) := hf
    rw [Formula.tokens_some hf.1] at hl
    obtain ⟨xs, ys, rfl, ⟨more, rfl, rfl⟩, hy⟩ := (tight_append_iff (by simp)).1 hl
    have hopen : 1 ≤ "(".toList.length := by decide
    simp only [List.append_nil, List.append_assoc, List.length_append] at hn ⊢
    refine .orElse_right ?_ (.orElse_left (.named ?_))
    · exact .named (failsOn_exactly_head (by decide)).bind
    · refine (reads_exactly ['(']).bind fun _ _ => ?_
      refine (reads_closed (P := Like Formula.unplaced (.some fs)) id
        (Formula.plainTokens_body hbody) hy (fun body rest' hb' hlen hclose => ?_) rest).imp ?_
      · exact hi _ body _ hbody hb' (by omega) (hclose.mono (by decide))
      · rintro _ ⟨g, hg, rfl⟩
        exact hg

/-- Every layout of a conjunction is read as this conjunction, when bodies in parentheses are. -/
theorem reads_conjunction {fuel : Nat} {inner : Reader (Formula WrittenTerm)}
    (hi : ReadsBodies inner fuel) {f : Formula WrittenTerm} (hf : f.IsConjunction)
    {text rest : List Char} (hl : Tight f.tokens text) (hn : text.length < fuel)
    (hr : Before [';', ')', '.'] rest) :
    (conjunction fuel inner).Reads (text ++ rest) (Like Formula.unplaced f) rest := by
  cases f with
  | every fs =>
    have hparts := Formula.areConjuncts_iff.1 hf.2
    rw [Formula.tokens_every] at hl
    refine .named (Reads.bind (P := Like (List.map Formula.unplaced) fs) (reads_separated
      (show ",".toList = [','] from rfl) (by decide) (by decide) (by decide) (n := text.length)
      (fun f hf text' rest' hl' hn' hr' => ?_)
      (fun f hf => Formula.plainTokens_conjunct (hparts f hf)) hf.1 hl (Nat.le_refl _) hr
      (by omega)) fun gs hgs => .pure ?_)
    · exact reads_conjunct hi (hparts f hf) hl' (by omega) hr'
    · show Formula.every (Formula.unplacedAll gs) = Formula.every (Formula.unplacedAll fs)
      rw [Formula.unplacedAll_eq_map, Formula.unplacedAll_eq_map, hgs]
  | _ => exact absurd hf id

/-- Every layout of a body is read as this body, up to its places. -/
theorem reads_disjunction (fuel : Nat) : ReadsBodies (disjunction fuel) fuel := by
  induction fuel with
  | zero =>
    intro f text rest hf hl hn hr
    omega
  | succ fuel ih =>
    intro f text rest hf hl hn hr
    cases f with
    | some fs =>
      have hparts := Formula.areConjunctions_iff.1 hf.2
      rw [Formula.bodyTokens_some] at hl
      refine .named (Reads.bind (P := Like (List.map Formula.unplaced) fs) (reads_separated
        (show ";".toList = [';'] from rfl) (by decide) (by decide) (by decide) (n := text.length)
        (fun f hf text' rest' hl' hn' hr' => ?_)
        (fun f hf => Formula.plainTokens_conjunction (hparts f hf)) hf.1 hl (Nat.le_refl _) hr
        (by omega)) fun gs hgs => .pure ?_)
      · exact reads_conjunction ih (hparts f hf) hl' (by omega) hr'
      · show Formula.some (Formula.unplacedAll gs) = Formula.some (Formula.unplacedAll fs)
        rw [Formula.unplacedAll_eq_map, Formula.unplacedAll_eq_map, hgs]
    | _ => exact absurd hf id

end TimedInference.Syntax
