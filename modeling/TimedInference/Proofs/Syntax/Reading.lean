import TimedInference.Syntax.Reader

/-!
# What readers do

A reader gives a value at a place or fails there.  Both are described through the parts of a reader: what
a sequence, an alternative or a repetition gives follows from what its parts give (`gives_bind_iff` and its
companions, which take a reading apart).  To show that a reading succeeds, the offsets do not matter:
`Reads p cs P rest` says that at any offset `p` takes the text `cs` to a value with the property `P` and
leaves `rest`.
-/

namespace TimedInference.Syntax.Reader

variable {α β : Type}

/-- The reader gives a value at a place and reaches another place. -/
def Gives (p : Reader α) (c : Cursor) (a : α) (c' : Cursor) : Prop := (p c).result = some (a, c')

/-- The reader fails at a place. -/
def Fails (p : Reader α) (c : Cursor) : Prop := (p c).result = none

/-- A reader gives one value at a place. -/
theorem Gives.unique {p : Reader α} {c c₁ c₂ : Cursor} {a₁ a₂ : α} (h₁ : p.Gives c a₁ c₁)
    (h₂ : p.Gives c a₂ c₂) : a₁ = a₂ ∧ c₁ = c₂ := by
  have h := Option.some.inj (h₁.symm.trans h₂)
  exact ⟨congrArg Prod.fst h, congrArg Prod.snd h⟩

/-- What gives a value does not fail. -/
theorem Gives.not_fails {p : Reader α} {c c' : Cursor} {a : α} (h : p.Gives c a c') :
    ¬ p.Fails c := by
  intro hf
  have := h.symm.trans hf
  simp at this

/-! ## Taking a reading apart -/

@[simp] theorem gives_pure_iff {a b : α} {c c' : Cursor} :
    Gives (pure a) c b c' ↔ b = a ∧ c' = c := by
  show some (a, c) = some (b, c') ↔ _
  rw [Option.some.injEq, Prod.mk.injEq, eq_comm, eq_comm (a := c)]

/-- A sequence has the result of its second part, where the first one succeeds. -/
theorem result_bind (p : Reader α) (f : α → Reader β) (c : Cursor) :
    ((p >>= f) c).result = (p c).result.bind fun r => (f r.1 r.2).result := by
  show (Reader.bind p f c).result = _
  unfold Reader.bind
  rcases p c with ⟨_ | ⟨a, c'⟩, n⟩ <;> rfl

/-- A sequence gives what its second part gives after the first one. -/
theorem gives_bind_iff {p : Reader α} {f : α → Reader β} {c c'' : Cursor} {b : β} :
    (p >>= f).Gives c b c'' ↔ ∃ a c', p.Gives c a c' ∧ (f a).Gives c' b c'' := by
  simp only [Gives, result_bind, Option.bind_eq_some_iff, Prod.exists]

/-- A sequence fails in its first part or in its second one. -/
theorem fails_bind_iff {p : Reader α} {f : α → Reader β} {c : Cursor} :
    (p >>= f).Fails c ↔ p.Fails c ∨ ∃ a c', p.Gives c a c' ∧ (f a).Fails c' := by
  simp only [Fails, Gives, result_bind]
  cases (p c).result with
  | none => simp
  | some r =>
    simp only [Option.bind_some, Option.some.injEq, reduceCtorEq, false_or]
    constructor
    · intro h
      exact ⟨r.1, r.2, rfl, h⟩
    · rintro ⟨a, c', rfl, h⟩
      exact h

/-- An alternative has the result of its first part, if there is one, and else that of the second. -/
theorem result_orElse (p q : Reader α) (c : Cursor) :
    ((p <|> q) c).result = (p c).result.or (q c).result := by
  show (Reader.orElse p (fun _ => q) c).result = _
  unfold Reader.orElse
  rcases p c with ⟨_ | ⟨a, c'⟩, n⟩ <;> rfl

/-- The second part of an alternative is tried only where the first one fails. -/
theorem gives_orElse_iff {p q : Reader α} {c c' : Cursor} {a : α} :
    (p <|> q).Gives c a c' ↔ p.Gives c a c' ∨ p.Fails c ∧ q.Gives c a c' := by
  simp only [Gives, Fails, result_orElse]
  cases (p c).result <;> simp

/-- An alternative fails where both its parts do. -/
theorem fails_orElse_iff {p q : Reader α} {c : Cursor} :
    (p <|> q).Fails c ↔ p.Fails c ∧ q.Fails c := by
  simp only [Fails, result_orElse]
  cases (p c).result <;> simp

/-- A name changes what a failure reports, and nothing that is given. -/
@[simp] theorem gives_named_iff {construct : Construct} {p : Reader α} {c c' : Cursor} {a : α} :
    (named construct p).Gives c a c' ↔ p.Gives c a c' := Iff.rfl

/-- An optional part gives its value, or the default and takes nothing. -/
theorem gives_orDefault_iff {p : Reader α} {d a : α} {c c' : Cursor} :
    (orDefault p d).Gives c a c' ↔ p.Gives c a c' ∨ p.Fails c ∧ a = d ∧ c' = c := by
  rw [orDefault, gives_orElse_iff, gives_pure_iff]

@[simp] theorem not_gives_failure {c c' : Cursor} {a : α} : ¬ Gives failure c a c' := by
  show ¬ none = some (a, c')
  simp

theorem gives_offset_iff {c c' : Cursor} {n : Nat} :
    offset.Gives c n c' ↔ n = c.offset ∧ c' = c := by
  show some (c.offset, c) = some (n, c') ↔ _
  rw [Option.some.injEq, Prod.mk.injEq, eq_comm, eq_comm (a := c)]

/-- What comes after an expected text is the rest of a text that begins with it. -/
theorem after?_eq_some_iff {expected cs rest : List Char} :
    after? expected cs = some rest ↔ cs = expected ++ rest := by
  induction expected generalizing cs with
  | nil => simp [after?]
  | cons e es ih =>
    cases cs with
    | nil => simp [after?]
    | cons c cs =>
      rw [after?]
      by_cases h : e = c
      · subst h
        simp [ih]
      · simp [h, Ne.symm h]

/-- A fixed text is read where the rest begins with it. -/
theorem gives_exactly_iff {expected : List Char} {c c' : Cursor} :
    (exactly expected).Gives c () c' ↔
      c.rest = expected ++ c'.rest ∧ c'.offset = c.offset + expected.length := by
  obtain ⟨o, cs⟩ := c
  obtain ⟨o', cs'⟩ := c'
  show ((after? expected cs).map fun rest => ((), (⟨o + expected.length, rest⟩ : Cursor))) =
    some ((), ⟨o', cs'⟩) ↔ _
  rw [Option.map_eq_some_iff]
  simp only [after?_eq_some_iff, Prod.mk.injEq, Cursor.mk.injEq, true_and]
  constructor
  · rintro ⟨rest, h, rfl, rfl⟩
    exact ⟨h, rfl⟩
  · rintro ⟨h, rfl⟩
    exact ⟨cs', h, rfl, rfl⟩

/-- One character of a class is read where the rest begins with it. -/
theorem gives_one_iff {p : Char → Bool} {c c' : Cursor} {x : Char} :
    (one p).Gives c x c' ↔ c.rest = x :: c'.rest ∧ p x = true ∧ c'.offset = c.offset + 1 := by
  obtain ⟨o, cs⟩ := c
  obtain ⟨o', cs'⟩ := c'
  cases cs with
  | nil => simp [Gives, one]
  | cons y ys =>
    by_cases hy : p y = true
    · simp only [Gives, one, hy, if_true, Option.some.injEq, Prod.mk.injEq, Cursor.mk.injEq,
        List.cons.injEq]
      constructor
      · rintro ⟨rfl, rfl, rfl⟩
        exact ⟨⟨rfl, rfl⟩, hy, rfl⟩
      · rintro ⟨⟨rfl, rfl⟩, -, rfl⟩
        exact ⟨rfl, rfl, rfl⟩
    · simp only [Gives, one, hy, List.cons.injEq]
      constructor
      · intro h
        simp at h
      · rintro ⟨⟨rfl, rfl⟩, hx, -⟩
        exact absurd hx hy

/-- A run takes all characters of its class, as far as they go, and never fails. -/
theorem gives_run_iff {p : Char → Bool} {c c' : Cursor} {xs : List Char} :
    (run p).Gives c xs c' ↔ xs = c.rest.takeWhile p ∧ c'.rest = c.rest.dropWhile p ∧
      c'.offset = c.offset + xs.length := by
  obtain ⟨o', cs'⟩ := c'
  show some (c.rest.takeWhile p, (⟨_, c.rest.dropWhile p⟩ : Cursor)) = some (xs, ⟨o', cs'⟩) ↔ _
  simp only [Option.some.injEq, Prod.mk.injEq, Cursor.mk.injEq]
  constructor
  · rintro ⟨rfl, rfl, rfl⟩
    exact ⟨rfl, rfl, rfl⟩
  · rintro ⟨rfl, rfl, rfl⟩
    exact ⟨rfl, rfl, rfl⟩

/-- The end is read where nothing is left. -/
theorem gives_endOfInput_iff {c c' : Cursor} {u : Unit} :
    endOfInput.Gives c u c' ↔ c.rest = [] ∧ c' = c := by
  obtain ⟨o, cs⟩ := c
  cases cs with
  | nil =>
    show some ((), (⟨o, []⟩ : Cursor)) = some (u, c') ↔ _
    simp [eq_comm]
  | cons x cs =>
    show none = some (u, c') ↔ _
    simp

/-- What a repetition gives: nothing, or one value and then more. -/
theorem gives_many_succ {p : Reader α} {fuel : Nat} {c c'' : Cursor} {as : List α}
    (h : (many p (fuel + 1)).Gives c as c'') :
    as = [] ∧ c'' = c ∨
      ∃ a rest c', as = a :: rest ∧ p.Gives c a c' ∧ (many p fuel).Gives c' rest c'' := by
  rw [many, gives_orDefault_iff] at h
  rcases h with h | ⟨-, rfl, rfl⟩
  · obtain ⟨a, c', ha, h⟩ := gives_bind_iff.1 h
    obtain ⟨rest, c₁, hr, h⟩ := gives_bind_iff.1 h
    obtain ⟨rfl, rfl⟩ := gives_pure_iff.1 h
    exact .inr ⟨a, rest, c', rfl, ha, hr⟩
  · exact .inl ⟨rfl, rfl⟩

/-! ## Putting a reading together -/

/-- At every offset, the reader takes the first text to a value with a property and leaves the second
text. -/
def Reads (p : Reader α) (cs : List Char) (P : α → Prop) (rest : List Char) : Prop :=
  ∀ o, ∃ a o', p.Gives ⟨o, cs⟩ a ⟨o', rest⟩ ∧ P a

/-- At every offset, the reader fails on a text. -/
def FailsOn (p : Reader α) (cs : List Char) : Prop := ∀ o, p.Fails ⟨o, cs⟩

section

variable {p q : Reader α} {f : α → Reader β} {cs m rest : List Char} {P Q : α → Prop}
  {R : β → Prop}

/-- What is known of the value may be weakened. -/
theorem Reads.imp (h : p.Reads cs P rest) (hpq : ∀ a, P a → Q a) : p.Reads cs Q rest := by
  intro o
  obtain ⟨a, o', ha, hp⟩ := h o
  exact ⟨a, o', ha, hpq a hp⟩

theorem Reads.pure {a : α} (h : P a) : Reads (Pure.pure a) cs P cs :=
  fun o => ⟨a, o, gives_pure_iff.2 ⟨rfl, rfl⟩, h⟩

/-- A sequence reads what its parts read, one after the other. -/
theorem Reads.bind (h : p.Reads cs P m) (hf : ∀ a, P a → (f a).Reads m R rest) :
    (p >>= f).Reads cs R rest := by
  intro o
  obtain ⟨a, o₁, ha, hp⟩ := h o
  obtain ⟨b, o₂, hb, hr⟩ := hf a hp o₁
  exact ⟨b, o₂, gives_bind_iff.2 ⟨a, _, ha, hb⟩, hr⟩

/-- An alternative reads what its first part reads. -/
theorem Reads.orElse_left (h : p.Reads cs P rest) : (p <|> q).Reads cs P rest := by
  intro o
  obtain ⟨a, o', ha, hp⟩ := h o
  exact ⟨a, o', gives_orElse_iff.2 (.inl ha), hp⟩

/-- An alternative reads what its second part reads if the first one fails there. -/
theorem Reads.orElse_right (hp : p.FailsOn cs) (h : q.Reads cs P rest) :
    (p <|> q).Reads cs P rest := by
  intro o
  obtain ⟨a, o', ha, hpa⟩ := h o
  exact ⟨a, o', gives_orElse_iff.2 (.inr ⟨hp o, ha⟩), hpa⟩

theorem Reads.named {construct : Construct} (h : p.Reads cs P rest) :
    (named construct p).Reads cs P rest := h

/-- An optional part is read where it stands. -/
theorem Reads.orDefault {d : α} (h : p.Reads cs P rest) : (orDefault p d).Reads cs P rest :=
  h.orElse_left

/-- Where an optional part fails nothing is taken, and the default is its value. -/
theorem FailsOn.orDefault {d : α} (h : p.FailsOn cs) (hd : P d) : (orDefault p d).Reads cs P cs :=
  .orElse_right h (.pure hd)

theorem FailsOn.named {construct : Construct} (h : p.FailsOn cs) :
    (named construct p).FailsOn cs := h

/-- A sequence fails where its first part does. -/
theorem FailsOn.bind (h : p.FailsOn cs) : (p >>= f).FailsOn cs :=
  fun o => fails_bind_iff.2 (.inl (h o))

/-- A sequence fails when its second part does after the first one. -/
theorem Reads.bind_failsOn (h : p.Reads cs P m) (hf : ∀ a, P a → (f a).FailsOn m) :
    (p >>= f).FailsOn cs := by
  intro o
  obtain ⟨a, o', ha, hp⟩ := h o
  exact fails_bind_iff.2 (.inr ⟨a, _, ha, hf a hp o'⟩)

/-- An alternative fails where both its parts do, at any offset. -/
theorem FailsOn.orElse (hp : p.FailsOn cs) (hq : q.FailsOn cs) : (p <|> q).FailsOn cs :=
  fun o => fails_orElse_iff.2 ⟨hp o, hq o⟩

theorem reads_offset : Reader.offset.Reads cs (fun _ => True) cs :=
  fun o => ⟨o, o, gives_offset_iff.2 ⟨rfl, rfl⟩, trivial⟩

/-- A fixed text is read. -/
theorem reads_exactly (expected : List Char) :
    (exactly expected).Reads (expected ++ rest) (fun _ => True) rest :=
  fun o => ⟨(), o + expected.length, gives_exactly_iff.2 ⟨rfl, rfl⟩, trivial⟩

/-- A fixed text is not read in front of anything else. -/
theorem failsOn_exactly {expected : List Char} (h : ¬ expected <+: cs) :
    (exactly expected).FailsOn cs := by
  intro o
  show ((after? expected cs).map fun rest => ((), (⟨_, rest⟩ : Cursor))) = none
  rw [Option.map_eq_none_iff, Option.eq_none_iff_forall_ne_some]
  intro rest hrest
  rw [after?_eq_some_iff] at hrest
  exact h ⟨rest, hrest.symm⟩

/-- A character of the class is read. -/
theorem reads_one {class_ : Char → Bool} {x : Char} (h : class_ x = true) :
    (one class_).Reads (x :: rest) (· = x) rest :=
  fun o => ⟨x, o + 1, gives_one_iff.2 ⟨rfl, h, rfl⟩, rfl⟩

/-- A character of another class is not read, and neither is the end. -/
theorem failsOn_one {class_ : Char → Bool} (h : ∀ x, cs.head? = some x → class_ x = false) :
    (one class_).FailsOn cs := by
  intro o
  cases cs with
  | nil => rfl
  | cons x cs =>
    have hx := h x rfl
    simp [Fails, one, hx]

/-- Characters of a class are taken up to the first one that is not in it. -/
theorem takeWhile_append_of_all {class_ : Char → Bool} {xs : List Char}
    (hxs : xs.all class_ = true) (h : ∀ x, rest.head? = some x → class_ x = false) :
    (xs ++ rest).takeWhile class_ = xs ∧ (xs ++ rest).dropWhile class_ = rest := by
  induction xs with
  | nil =>
    cases rest with
    | nil => exact ⟨rfl, rfl⟩
    | cons x rest =>
      have hx := h x rfl
      simp [hx]
  | cons x xs ih =>
    rw [List.all_cons, Bool.and_eq_true] at hxs
    obtain ⟨ht, hd⟩ := ih hxs.2
    simp [hxs.1, ht, hd]

/-- A run is read up to the first character of another class. -/
theorem reads_run {class_ : Char → Bool} {xs : List Char} (hxs : xs.all class_ = true)
    (h : ∀ x, rest.head? = some x → class_ x = false) :
    (run class_).Reads (xs ++ rest) (· = xs) rest := by
  obtain ⟨ht, hd⟩ := takeWhile_append_of_all hxs h
  exact fun o => ⟨xs, _, gives_run_iff.2 ⟨ht.symm, hd.symm, rfl⟩, rfl⟩

/-- A run that is not empty is read up to the first character of another class. -/
theorem reads_run1 {class_ : Char → Bool} {xs : List Char} (hne : xs ≠ [])
    (hxs : xs.all class_ = true) (h : ∀ x, rest.head? = some x → class_ x = false) :
    (run1 class_).Reads (xs ++ rest) (· = xs) rest := by
  obtain ⟨x, xs, rfl⟩ := List.exists_cons_of_ne_nil hne
  rw [List.all_cons, Bool.and_eq_true] at hxs
  refine (reads_one hxs.1).bind fun a ha => ?_
  refine (reads_run hxs.2 h).bind fun as has => ?_
  exact .pure (by rw [ha, has])

/-- A run has to begin with a character of its class. -/
theorem failsOn_run1 {class_ : Char → Bool} (h : ∀ x, cs.head? = some x → class_ x = false) :
    (run1 class_).FailsOn cs := (failsOn_one h).bind

/-- A repetition stops where its reader fails. -/
theorem FailsOn.many (h : p.FailsOn cs) (fuel : Nat) : (many p fuel).Reads cs (· = []) cs := by
  cases fuel with
  | zero => exact .pure rfl
  | succ fuel => exact h.bind.orDefault rfl

/-- A repetition goes on where its reader reads. -/
theorem Reads.many {L : List α → Prop} (h : p.Reads cs P m) {fuel : Nat}
    (hs : (many p fuel).Reads m L rest) :
    (Reader.many p (fuel + 1)).Reads cs (fun as => ∃ a as', as = a :: as' ∧ P a ∧ L as') rest := by
  refine Reads.orDefault (h.bind fun a ha => hs.bind fun as' has => .pure ?_)
  exact ⟨a, as', rfl, ha, has⟩

end

end TimedInference.Syntax.Reader
