import TimedInference.Syntax.Grammar

/-!
# Layouts

A layout of tokens is a text in which they stand in order, each after any amount of white space and
comments (`Laid`).  A whole text may have more of both at its end, where a comment needs no end of line
(`LaidOut`).  The end of a line is in no token, so a text with a line break is laid out in two parts
(`LaidOut.split`).
-/

namespace TimedInference.Syntax

/-! ## White space and comments -/

/-- Whether a text of white space and comments ends inside a comment, given whether it begins in one;
nothing for other texts. -/
def endsInside? : Bool → List Char → Option Bool
  | inside, [] => some inside
  | true, c :: cs => endsInside? (!endsComment c) cs
  | false, c :: cs =>
    if isSpace c then endsInside? false cs
    else if c = '%' then endsInside? true cs
    else none

/-- White space and comments between tokens. -/
def Gap (cs : List Char) : Prop := endsInside? false cs = some false

/-- White space and comments at the end of a text. -/
def FinalGap (cs : List Char) : Prop := (endsInside? false cs).isSome = true

/-- A text that does not begin with white space or a comment. -/
def Solid (cs : List Char) : Prop := ∀ c, cs.head? = some c → isSpace c = false ∧ c ≠ '%'

/-- Whether a comment is open is passed on from one text to the next. -/
theorem endsInside?_append (inside : Bool) (xs ys : List Char) :
    endsInside? inside (xs ++ ys) = (endsInside? inside xs).bind (endsInside? · ys) := by
  induction xs generalizing inside with
  | nil => rfl
  | cons x xs ih =>
    cases inside with
    | true => exact ih _
    | false =>
      rw [List.cons_append, endsInside?, endsInside?]
      split
      · exact ih _
      · split
        · exact ih _
        · rfl

theorem gap_nil : Gap [] := rfl

/-- Two gaps make a gap. -/
theorem Gap.append {g h : List Char} (hg : Gap g) (hh : Gap h) : Gap (g ++ h) := by
  rw [Gap, endsInside?_append, hg]
  exact hh

/-- A gap may stand at the end. -/
theorem Gap.final {g : List Char} (h : Gap g) : FinalGap g := by
  rw [FinalGap, h]
  rfl

theorem Gap.append_final {g h : List Char} (hg : Gap g) (hh : FinalGap h) : FinalGap (g ++ h) := by
  rw [FinalGap, endsInside?_append, hg]
  exact hh

/-- A line break ends a comment, and what follows begins outside of one. -/
theorem endsInside?_newline (inside : Bool) (ys : List Char) :
    endsInside? inside ('\n' :: ys) = endsInside? false ys := by
  cases inside <;> rfl

/-- The end of a line closes a comment that is open at the end. -/
theorem FinalGap.newline {g : List Char} (h : FinalGap g) : Gap (g ++ ['\n']) := by
  obtain ⟨inside, hi⟩ := Option.isSome_iff_exists.1 h
  rw [Gap, endsInside?_append, hi, Option.bind_some, endsInside?_newline]
  rfl

/-- White space and comments are split by a line break into two such texts. -/
theorem FinalGap.split {xs ys : List Char} (h : FinalGap (xs ++ '\n' :: ys)) :
    FinalGap xs ∧ FinalGap ys := by
  rw [FinalGap, endsInside?_append] at h
  unfold FinalGap
  cases hx : endsInside? false xs with
  | none => simp [hx] at h
  | some inside =>
    rw [hx, Option.bind_some, endsInside?_newline] at h
    exact ⟨rfl, h⟩

/-- A gap over several lines splits at the end of each. -/
theorem Gap.split {xs ys : List Char} (h : Gap (xs ++ '\n' :: ys)) : FinalGap xs ∧ Gap ys := by
  refine ⟨h.final.split.1, ?_⟩
  rw [Gap, endsInside?_append] at h
  unfold Gap
  cases hx : endsInside? false xs with
  | none => simp [hx] at h
  | some inside => rwa [hx, Option.bind_some, endsInside?_newline] at h

/-- What is skipped is white space and comments; more text can only follow outside of a comment. -/
theorem skipBlanks_sound {inside : Bool} {o : Nat} {cs : List Char} {c : Cursor}
    (h : skipBlanks inside o cs = c) :
    ∃ g, cs = g ++ c.rest ∧ (endsInside? inside g).isSome = true ∧
      (c.rest ≠ [] → endsInside? inside g = some false) := by
  induction cs generalizing inside o with
  | nil =>
    subst h
    cases inside <;> exact ⟨[], rfl, rfl, fun hne => absurd rfl hne⟩
  | cons x xs ih =>
    cases inside with
    | true =>
      obtain ⟨g, rfl, hg⟩ := ih (o := o + 1) h
      exact ⟨x :: g, rfl, hg⟩
    | false =>
      rw [skipBlanks] at h
      split at h
      · rename_i hs
        obtain ⟨g, rfl, hg⟩ := ih h
        refine ⟨x :: g, rfl, ?_⟩
        rwa [endsInside?, if_pos hs]
      · split at h
        · rename_i hs hc
          obtain ⟨g, rfl, hg⟩ := ih h
          refine ⟨x :: g, rfl, ?_⟩
          rwa [endsInside?, if_neg hs, if_pos hc]
        · subst h
          exact ⟨[], rfl, rfl, fun _ => rfl⟩

/-- What ends outside of a comment is skipped, and what follows is then looked at from outside. -/
theorem skipBlanks_append {inside : Bool} (o : Nat) {g : List Char} (rest : List Char)
    (h : endsInside? inside g = some false) :
    skipBlanks inside o (g ++ rest) = skipBlanks false (o + g.length) rest := by
  induction g generalizing inside o with
  | nil =>
    obtain rfl : inside = false := Option.some.inj h
    rfl
  | cons x g ih =>
    rw [List.length_cons, show o + (g.length + 1) = o + 1 + g.length by omega]
    cases inside with
    | true => exact ih _ h
    | false =>
      rw [List.cons_append, skipBlanks]
      rw [endsInside?] at h
      split at h
      · rename_i hs
        rw [if_pos hs]
        exact ih _ h
      · split at h
        · rename_i hs hc
          rw [if_neg hs, if_pos hc]
          exact ih _ h
        · simp at h

/-- Everything up to a solid text is skipped. -/
theorem skipBlanks_gap (o : Nat) {g rest : List Char} (hg : Gap g) (hr : Solid rest) :
    skipBlanks false o (g ++ rest) = ⟨o + g.length, rest⟩ := by
  rw [skipBlanks_append o rest hg]
  cases rest with
  | nil => rfl
  | cons x rest =>
    obtain ⟨hs, hc⟩ := hr x rfl
    simp [skipBlanks, hs, hc]

/-- All white space and comments at the end of a text are skipped. -/
theorem skipBlanks_final {inside : Bool} (o : Nat) {g : List Char}
    (h : (endsInside? inside g).isSome = true) : skipBlanks inside o g = ⟨o + g.length, []⟩ := by
  induction g generalizing inside o with
  | nil => cases inside <;> rfl
  | cons x g ih =>
    rw [List.length_cons, show o + (g.length + 1) = o + 1 + g.length by omega]
    cases inside with
    | true => exact ih _ h
    | false =>
      rw [skipBlanks]
      rw [endsInside?] at h
      split at h
      · rename_i hs
        rw [if_pos hs]
        exact ih _ h
      · split at h
        · rename_i hs hc
          rw [if_neg hs, if_pos hc]
          exact ih _ h
        · simp at h

/-! ## Tokens in a text -/

/-- A piece of text that white space and comments cannot break. -/
abbrev Token := List Char

/-- The tokens stand in the text in order, each after white space and comments, and nothing else
does. -/
def Laid : List Token → List Char → Prop
  | [], cs => cs = []
  | t :: ts, cs => ∃ gap rest, cs = gap ++ (t ++ rest) ∧ Gap gap ∧ Laid ts rest

/-- The tokens are laid out in the text, which begins with the first of them. -/
def Tight : List Token → List Char → Prop
  | [], cs => cs = []
  | t :: ts, cs => ∃ rest, cs = t ++ rest ∧ Laid ts rest

/-- A layout that begins with its first token is a layout. -/
theorem Tight.laid {ts : List Token} {cs : List Char} (h : Tight ts cs) : Laid ts cs := by
  cases ts with
  | nil => exact h
  | cons t ts =>
    obtain ⟨rest, rfl, hr⟩ := h
    exact ⟨[], rest, rfl, gap_nil, hr⟩

theorem tight_singleton (t : Token) : Tight [t] t := ⟨[], (List.append_nil t).symm, rfl⟩

/-- Tokens need nothing between them. -/
theorem tight_flatten (ts : List Token) : Tight ts ts.flatten := by
  induction ts with
  | nil => rfl
  | cons t ts ih => exact ⟨ts.flatten, rfl, ih.laid⟩

/-- More white space and comments may stand before the first token. -/
theorem Laid.gap {ts : List Token} {g cs : List Char} (hg : Gap g) (hne : ts ≠ [])
    (h : Laid ts cs) : Laid ts (g ++ cs) := by
  cases ts with
  | nil => exact absurd rfl hne
  | cons t ts =>
    obtain ⟨gap, rest, rfl, hgap, hr⟩ := h
    exact ⟨g ++ gap, rest, by rw [List.append_assoc], hg.append hgap, hr⟩

/-- Before the first token there are only white space and comments. -/
theorem Laid.exists_tight {ts : List Token} {cs : List Char} (hne : ts ≠ []) (h : Laid ts cs) :
    ∃ g body, cs = g ++ body ∧ Gap g ∧ Tight ts body := by
  cases ts with
  | nil => exact absurd rfl hne
  | cons t ts =>
    obtain ⟨gap, rest, rfl, hgap, hr⟩ := h
    exact ⟨gap, t ++ rest, rfl, hgap, rest, rfl, hr⟩

/-- Layouts of two groups of tokens are those of the one followed by those of the other. -/
theorem laid_append_iff {ts us : List Token} {cs : List Char} :
    Laid (ts ++ us) cs ↔ ∃ xs ys, cs = xs ++ ys ∧ Laid ts xs ∧ Laid us ys := by
  induction ts generalizing cs with
  | nil =>
    constructor
    · intro h
      exact ⟨[], cs, rfl, rfl, h⟩
    · rintro ⟨xs, ys, rfl, rfl, h⟩
      exact h
  | cons t ts ih =>
    constructor
    · rintro ⟨gap, rest, rfl, hgap, hr⟩
      obtain ⟨xs, ys, rfl, hx, hy⟩ := ih.1 hr
      exact ⟨gap ++ (t ++ xs), ys, by simp only [List.append_assoc], ⟨gap, xs, rfl, hgap, hx⟩, hy⟩
    · rintro ⟨xs, ys, rfl, ⟨gap, rest, rfl, hgap, hr⟩, hy⟩
      exact ⟨gap, rest ++ ys, by simp only [List.append_assoc], hgap, ih.2 ⟨rest, ys, rfl, hr, hy⟩⟩

theorem Laid.append {ts us : List Token} {xs ys : List Char} (hx : Laid ts xs) (hy : Laid us ys) :
    Laid (ts ++ us) (xs ++ ys) := laid_append_iff.2 ⟨xs, ys, rfl, hx, hy⟩

/-- The first group has to begin at once, if it is not empty, and the second may follow a gap. -/
theorem tight_append_iff {ts us : List Token} {cs : List Char} (hne : ts ≠ []) :
    Tight (ts ++ us) cs ↔ ∃ xs ys, cs = xs ++ ys ∧ Tight ts xs ∧ Laid us ys := by
  cases ts with
  | nil => exact absurd rfl hne
  | cons t ts =>
    constructor
    · rintro ⟨rest, rfl, hr⟩
      obtain ⟨xs, ys, rfl, hx, hy⟩ := laid_append_iff.1 hr
      exact ⟨t ++ xs, ys, by rw [List.append_assoc], ⟨xs, rfl, hx⟩, hy⟩
    · rintro ⟨xs, ys, rfl, ⟨rest, rfl, hr⟩, hy⟩
      exact ⟨rest ++ ys, by rw [List.append_assoc], hr.append hy⟩

theorem Tight.append {ts us : List Token} {xs ys : List Char} (hne : ts ≠ []) (hx : Tight ts xs)
    (hy : Laid us ys) : Tight (ts ++ us) (xs ++ ys) :=
  (tight_append_iff hne).2 ⟨xs, ys, rfl, hx, hy⟩

/-- A text is at least as long as the number of tokens in it. -/
theorem Laid.length_le {ts : List Token} {cs : List Char} (hne : ∀ t ∈ ts, t ≠ [])
    (h : Laid ts cs) : ts.length ≤ cs.length := by
  induction ts generalizing cs with
  | nil => exact Nat.zero_le _
  | cons t ts ih =>
    rw [List.forall_mem_cons] at hne
    obtain ⟨gap, rest, rfl, -, hr⟩ := h
    have ht := List.length_pos_iff.2 hne.1
    have := ih hne.2 hr
    simp only [List.length_append, List.length_cons]
    omega

/-! ## Whole texts -/

/-- The tokens are laid out in a whole text. -/
def LaidOut (ts : List Token) (cs : List Char) : Prop :=
  ∃ xs g, cs = xs ++ g ∧ Laid ts xs ∧ FinalGap g

/-- Tokens may be laid out in front of a whole text. -/
theorem Laid.out {ts us : List Token} {xs ys : List Char} (hx : Laid ts xs) (hy : LaidOut us ys) :
    LaidOut (ts ++ us) (xs ++ ys) := by
  obtain ⟨zs, g, rfl, hz, hg⟩ := hy
  exact ⟨xs ++ zs, g, by rw [List.append_assoc], hx.append hz, hg⟩

/-- A gap may stand in front of a whole text. -/
theorem LaidOut.gap {ts : List Token} {g cs : List Char} (hg : Gap g) (h : LaidOut ts cs) :
    LaidOut ts (g ++ cs) := by
  obtain ⟨xs, g', rfl, hx, hg'⟩ := h
  cases ts with
  | nil =>
    obtain rfl : xs = [] := hx
    exact ⟨[], g ++ g', rfl, rfl, hg.append_final hg'⟩
  | cons t ts =>
    exact ⟨g ++ xs, g', by rw [List.append_assoc], hx.gap hg (by simp), hg'⟩

/-- Two whole texts on lines of their own make one whole text. -/
theorem LaidOut.append_newline {ts us : List Token} {xs ys : List Char} (hx : LaidOut ts xs)
    (hy : LaidOut us ys) : LaidOut (ts ++ us) (xs ++ '\n' :: ys) := by
  obtain ⟨zs, g, rfl, hz, hg⟩ := hx
  have h := hz.out (hy.gap hg.newline)
  simpa only [List.append_assoc, List.singleton_append] using h

/-- Where a character of a text stands that is made of two parts. -/
theorem cut_append {c : Char} {g rest xs ys : List Char} (h : g ++ rest = xs ++ c :: ys) :
    (∃ bs, g = xs ++ c :: bs ∧ ys = bs ++ rest) ∨ ∃ as, xs = g ++ as ∧ rest = as ++ c :: ys := by
  induction g generalizing xs with
  | nil => exact .inr ⟨xs, rfl, h⟩
  | cons x g ih =>
    cases xs with
    | nil =>
      rw [List.cons_append, List.nil_append, List.cons.injEq] at h
      exact .inl ⟨g, by rw [h.1, List.nil_append], h.2.symm⟩
    | cons y xs =>
      rw [List.cons_append, List.cons_append, List.cons.injEq] at h
      obtain ⟨rfl, h⟩ := h
      rcases ih h with ⟨bs, rfl, hb⟩ | ⟨as, rfl, ha⟩
      · exact .inl ⟨bs, rfl, hb⟩
      · exact .inr ⟨as, rfl, ha⟩

/-- At a line break a whole text falls into two whole texts, if no token has a line break. -/
theorem LaidOut.split {ts : List Token} {xs ys : List Char} (hnl : ∀ t ∈ ts, '\n' ∉ t)
    (h : LaidOut ts (xs ++ '\n' :: ys)) :
    ∃ us vs, ts = us ++ vs ∧ LaidOut us xs ∧ LaidOut vs ys := by
  induction ts generalizing xs with
  | nil =>
    obtain ⟨zs, g, he, hz, hg⟩ := h
    obtain rfl : zs = [] := hz
    rw [List.nil_append] at he
    subst he
    exact ⟨[], [], rfl, ⟨[], xs, rfl, rfl, hg.split.1⟩, [], ys, rfl, rfl, hg.split.2⟩
  | cons t ts ih =>
    rw [List.forall_mem_cons] at hnl
    obtain ⟨zs, g, he, ⟨gap, rest, rfl, hgap, hr⟩, hg⟩ := h
    have he' : gap ++ (t ++ (rest ++ g)) = xs ++ '\n' :: ys := by
      rw [he]
      simp only [List.append_assoc]
    rcases cut_append he' with ⟨bs, rfl, rfl⟩ | ⟨as, rfl, ha⟩
    · -- the line break is in the gap
      have hs := hgap.split
      refine ⟨[], t :: ts, rfl, ⟨[], xs, rfl, rfl, hs.1⟩, bs ++ (t ++ rest), g, ?_, ?_, hg⟩
      · simp only [List.append_assoc]
      · exact ⟨bs, rest, rfl, hs.2, hr⟩
    · -- the line break comes after the token
      rcases cut_append ha with ⟨bs, rfl, -⟩ | ⟨as', rfl, hrest⟩
      · exact absurd (List.mem_append_right _ List.mem_cons_self) hnl.1
      · obtain ⟨us, vs, rfl, hu, hv⟩ := ih hnl.2 ⟨rest, g, hrest.symm, hr, hg⟩
        refine ⟨t :: us, vs, rfl, ?_, hv⟩
        have hout := Laid.out (show Laid [t] (gap ++ (t ++ [])) from ⟨gap, [], rfl, hgap, rfl⟩) hu
        simpa only [List.append_nil, List.append_assoc, List.singleton_append] using hout

end TimedInference.Syntax
