import TimedInference.Proofs.Log.Success
import TimedInference.Proofs.Template.Lines

/-!
# What texts mean

The program that statements write can be said without reading them from left to right: each anonymous
variable is numbered by the bare underscores among the tokens up to it (`bareCount`), integers and
probabilities have the values of their digits, and the body of a rule stands for its alternatives
(`programOf`).  Resolving statements succeeds exactly when they are admissible, and gives this program
(`value?_resolveStatements_eq_some_iff`).  So a text is a program exactly when it is a layout of admissible
statements of the grammar, and it is the program that they write (`Program.ofText_eq_ok_iff_writes`).
-/

namespace TimedInference

open Syntax Syntax.Resolving

namespace Syntax

/-! ## Bare underscores -/

/-- The number of bare underscores among tokens. -/
def bareCount (ts : List Token) : Nat := ts.count ['_']

@[simp] theorem bareCount_nil : bareCount [] = 0 := rfl

/-- Underscores of texts that are put together are counted together. -/
@[simp] theorem bareCount_append (ts us : List Token) :
    bareCount (ts ++ us) = bareCount ts + bareCount us := List.count_append

theorem bareCount_cons_of_ne {t : Token} (h : t ≠ ['_']) (ts : List Token) :
    bareCount (t :: ts) = bareCount ts := List.count_cons_of_ne h

/-- Separators are no underscores. -/
theorem bareCount_separatedTokens {τ : Type} {separator : String} (h : separator.toList ≠ ['_'])
    (tokens : τ → List Token) (as : List τ) :
    bareCount (separatedTokens separator tokens as) = bareCount (as.flatMap tokens) := by
  cases as with
  | nil => rfl
  | cons a as =>
    rw [separatedTokens, List.flatMap_cons, bareCount_append, bareCount_append]
    congr 1
    induction as with
    | nil => rfl
    | cons b bs ih =>
      rw [List.flatMap_cons, List.flatMap_cons, List.cons_append, bareCount_cons_of_ne h,
        bareCount_append, bareCount_append, ih]

/-- An underscore is neither a functor nor digits nor a probability. -/
theorem IsFunctor.ne_bare {t : Token} (h : IsFunctor t) : t ≠ ['_'] := by
  obtain ⟨c, name, rfl, hc, -⟩ := h
  rintro ⟨⟩
  exact absurd hc (by decide)

theorem IsDigits.ne_bare {t : Token} (h : IsDigits t) : t ≠ ['_'] := by
  rintro rfl
  exact absurd h.2 (by decide)

theorem IsProbability.ne_bare {t : Token} (h : IsProbability t) : t ≠ ['_'] := by
  obtain ⟨whole, fraction, exponent, rfl, hwhole, -, -⟩ := h
  obtain ⟨d, ds, rfl⟩ := List.exists_cons_of_ne_nil hwhole.1
  have hd : d.isDigit = true := List.all_eq_true.1 hwhole.2 d List.mem_cons_self
  intro h
  rw [List.cons_append, List.cons_append, List.cons.injEq] at h
  rw [h.1] at hd
  exact absurd hd (by decide)

/-! ## Computations -/

/-- What is made of a value that is resolved. -/
theorem value?_bind_pure_eq_some_iff {β γ : Type} {x : Resolving β} {count : Nat} {fits : Prop}
    {s : β × Nat} (h : ∀ r, value? x count = some r ↔ fits ∧ s = r) (f : β → γ) (r : γ × Nat) :
    value? (x >>= fun b => pure (f b)) count = some r ↔ fits ∧ (f s.1, s.2) = r := by
  simp only [value?_bind_pure, Option.map_eq_some_iff, h]
  constructor
  · rintro ⟨_, ⟨hfits, rfl⟩, rfl⟩
    exact ⟨hfits, rfl⟩
  · rintro ⟨hfits, rfl⟩
    exact ⟨s, ⟨hfits, rfl⟩, rfl⟩

/-- The values of a list, each numbered after the tokens of those before it. -/
def numbered {τ β : Type} (value : Nat → τ → β) (tokens : τ → List Token) (count : Nat) :
    List τ → List β
  | [] => []
  | a :: as => value count a :: numbered value tokens (count + bareCount (tokens a)) as

/-- A list is resolved when each of its members is, and then to their values. -/
theorem ResolvesAll.value?_eq_some_iff {τ β : Type} {resolve : τ → Resolving β}
    {all : List τ → Resolving (List β)} (hall : ResolvesAll resolve all)
    {fits : τ → Prop} {value : Nat → τ → β} {tokens : τ → List Token} {as : List τ}
    (h : ∀ a ∈ as, ∀ count r, value? (resolve a) count = some r ↔
      fits a ∧ (value count a, count + bareCount (tokens a)) = r) (count : Nat) (r : List β × Nat) :
    value? (all as) count = some r ↔
      (∀ a ∈ as, fits a) ∧
        (numbered value tokens count as, count + bareCount (as.flatMap tokens)) = r := by
  induction as generalizing count r with
  | nil => simp [hall.value?_nil, numbered]
  | cons a as ih =>
    rw [List.forall_mem_cons] at h
    simp only [hall.value?_cons_eq_some_iff, h.1, ih h.2]
    rw [List.forall_mem_cons, numbered, List.flatMap_cons, bareCount_append, ← Nat.add_assoc]
    constructor
    · rintro ⟨_, ⟨ha, rfl⟩, _, ⟨has, rfl⟩, hr⟩
      exact ⟨⟨ha, has⟩, hr⟩
    · rintro ⟨⟨ha, has⟩, rfl⟩
      exact ⟨_, ⟨ha, rfl⟩, _, ⟨has, rfl⟩, rfl⟩

/-! ## Terms -/

/-- The integer of digits and a sign. -/
def signed (negative : Bool) (digits : List Char) : Int :=
  if negative then -(Decimal.ofDigits digits : Int) else Decimal.ofDigits digits

namespace WrittenTerm

mutual

/-- The term that a written term stands for after a number of bare underscores. -/
def value (count : Nat) : WrittenTerm → Term
  | var x => if x = "_" then .var ("_G" ++ toString (count + 1)) else .var x
  | integer _ negative digits => .int (signed negative digits)
  | compound f ts => .compound f (valueAll count ts)

/-- The terms that written terms stand for. -/
def valueAll (count : Nat) : List WrittenTerm → List Term
  | [] => []
  | t :: ts => t.value count :: valueAll (count + bareCount t.tokens) ts

end

mutual

/-- The integers of a term are timestamps. -/
def Fits : WrittenTerm → Prop
  | var _ => True
  | integer _ negative digits => Time.Fits (signed negative digits)
  | compound _ ts => AllFit ts

/-- The integers of terms are timestamps. -/
def AllFit : List WrittenTerm → Prop
  | [] => True
  | t :: ts => t.Fits ∧ AllFit ts

end

/-- The integers of a list of terms fit when those of each term do. -/
theorem allFit_iff {ts : List WrittenTerm} : AllFit ts ↔ ∀ t ∈ ts, t.Fits := by
  induction ts with
  | nil => simp [AllFit]
  | cons t ts ih => rw [AllFit, ih, List.forall_mem_cons]

/-- The terms of a list have the values that they have after the underscores before them. -/
theorem valueAll_eq_numbered (count : Nat) (ts : List WrittenTerm) :
    valueAll count ts = numbered value tokens count ts := by
  induction ts generalizing count with
  | nil => rfl
  | cons t ts ih => rw [valueAll, ih, numbered]

/-- The underscores of a compound are those of its arguments. -/
theorem bareCount_tokens_compound {f : String} (hf : IsFunctor f.toList) (ts : List WrittenTerm) :
    bareCount (compound f ts).tokens = bareCount (ts.flatMap tokens) := by
  cases ts with
  | nil => exact bareCount_cons_of_ne hf.ne_bare []
  | cons t ts =>
    rw [tokens_compound_cons, List.singleton_append, bareCount_cons_of_ne hf.ne_bare,
      List.singleton_append, bareCount_cons_of_ne (by decide), bareCount_append,
      bareCount_separatedTokens (by decide)]
    rfl

/-- A list of terms is resolved when its integers fit, to the values of its members. -/
theorem value?_resolveAll_eq_some_iff {ts : List WrittenTerm}
    (h : ∀ t ∈ ts, ∀ count r, value? t.resolve count = some r ↔
      t.Fits ∧ (t.value count, count + bareCount t.tokens) = r)
    (count : Nat) (r : List Term × Nat) :
    value? (resolveAll ts) count = some r ↔
      AllFit ts ∧ (valueAll count ts, count + bareCount (ts.flatMap tokens)) = r := by
  rw [allFit_iff, valueAll_eq_numbered]
  exact resolvesAll.value?_eq_some_iff h count r

/-- A term is resolved when its integers are timestamps, and then to its value. -/
theorem value?_resolve_eq_some_iff {t : WrittenTerm} (ht : t.Lexical) (count : Nat)
    (r : Term × Nat) :
    value? t.resolve count = some r ↔ t.Fits ∧ (t.value count, count + bareCount t.tokens) = r := by
  induction t generalizing count r with
  | var x =>
    rw [value?_resolve_var, Option.some.injEq, value, tokens]
    by_cases hx : x = "_"
    · subst hx
      simp [Fits, bareCount]
    · have hne : x.toList ≠ ['_'] := fun h => hx (String.toList_inj.1 h)
      rw [if_neg hx, if_neg hx, bareCount_cons_of_ne hne]
      simp [Fits]
  | integer o negative ds =>
    have hne : (if negative then '-' :: ds else ds) ≠ ['_'] := by
      cases negative with
      | true => simp
      | false => exact IsDigits.ne_bare ht
    rw [value?_resolve_integer, value, tokens, bareCount_cons_of_ne hne, Fits, Option.map_eq_some_iff]
    constructor
    · rintro ⟨n, hn, rfl⟩
      obtain ⟨hfits, rfl⟩ := resolveInteger_eq_ok_iff.1 (eq_ok_of_toOption hn)
      exact ⟨hfits, rfl⟩
    · rintro ⟨hfits, rfl⟩
      refine ⟨signed negative ds, ?_, rfl⟩
      rw [resolveInteger_eq_ok_iff.2 ⟨hfits, rfl⟩]
      rfl
  | compound f ts ih =>
    obtain ⟨hf, hts⟩ := ht
    rw [allLexical_iff] at hts
    have hall := value?_resolveAll_eq_some_iff (fun t hm => ih t hm (hts t hm)) count
    rw [resolve, value, Fits, bareCount_tokens_compound hf]
    exact value?_bind_pure_eq_some_iff hall (Term.compound f) r

end WrittenTerm

/-! ## Bodies -/

namespace Formula

mutual

/-- The formula with its written atoms replaced by the terms that they stand for. -/
def value (count : Nat) : Formula WrittenTerm → Formula Term
  | holds t => .holds (t.value count)
  | fails t => .fails (t.value count)
  | every fs => .every (valueAll count fs)
  | some fs => .some (valueAll count fs)

/-- The formulas with their written atoms replaced by the terms that they stand for. -/
def valueAll (count : Nat) : List (Formula WrittenTerm) → List (Formula Term)
  | [] => []
  | f :: fs => f.value count :: valueAll (count + bareCount f.tokens) fs

end

mutual

/-- The integers of a formula are timestamps. -/
def Fits : Formula WrittenTerm → Prop
  | holds t => t.Fits
  | fails t => t.Fits
  | every fs => AllFit fs
  | some fs => AllFit fs

/-- The integers of formulas are timestamps. -/
def AllFit : List (Formula WrittenTerm) → Prop
  | [] => True
  | f :: fs => f.Fits ∧ AllFit fs

end

/-- The integers of a list of formulas fit when those of each formula do. -/
theorem allFit_iff {fs : List (Formula WrittenTerm)} : AllFit fs ↔ ∀ f ∈ fs, f.Fits := by
  induction fs with
  | nil => simp [AllFit]
  | cons f fs ih => rw [AllFit, ih, List.forall_mem_cons]

/-- The formulas of a list have the values that they have after the underscores before them. -/
theorem valueAll_eq_numbered (count : Nat) (fs : List (Formula WrittenTerm)) :
    valueAll count fs = numbered value tokens count fs := by
  induction fs generalizing count with
  | nil => rfl
  | cons f fs ih => rw [valueAll, ih, numbered]

theorem bareCount_tokens_every (fs : List (Formula WrittenTerm)) :
    bareCount (every fs).tokens = bareCount (fs.flatMap tokens) := by
  rw [tokens_every, bareCount_separatedTokens (by decide)]

theorem bareCount_bodyTokens_some (fs : List (Formula WrittenTerm)) :
    bareCount (some fs).bodyTokens = bareCount (fs.flatMap tokens) := by
  rw [bodyTokens_some, bareCount_separatedTokens (by decide)]

theorem bareCount_tokens_some (fs : List (Formula WrittenTerm)) :
    bareCount (some fs).tokens = bareCount (fs.flatMap tokens) := by
  by_cases hne : fs = []
  · subst hne
    rfl
  · rw [tokens_some hne, List.singleton_append, bareCount_cons_of_ne (by decide), bareCount_append,
      bareCount_bodyTokens_some]
    rfl

/-- A list of formulas is resolved when its integers fit, to the values of its members. -/
theorem value?_resolveAll_eq_some_iff {fs : List (Formula WrittenTerm)}
    (h : ∀ f ∈ fs, ∀ count r, value? f.resolve count = .some r ↔
      f.Fits ∧ (f.value count, count + bareCount f.tokens) = r)
    (count : Nat) (r : List (Formula Term) × Nat) :
    value? (resolveAll fs) count = .some r ↔
      AllFit fs ∧ (valueAll count fs, count + bareCount (fs.flatMap tokens)) = r := by
  rw [allFit_iff, valueAll_eq_numbered]
  exact resolvesAll.value?_eq_some_iff h count r

/-- A part of a body is resolved when its integers are timestamps, and then to its value. -/
theorem value?_resolve_eq_some_iff {f : Formula WrittenTerm} (h : f.IsConjunct ∨ f.IsConjunction)
    (count : Nat) (r : Formula Term × Nat) :
    value? f.resolve count = .some r ↔ f.Fits ∧ (f.value count, count + bareCount f.tokens) = r := by
  induction f generalizing count r with
  | holds t =>
    have ht : t.Lexical := h.resolve_right id
    rw [resolve, value, Fits, tokens]
    exact value?_bind_pure_eq_some_iff (t.value?_resolve_eq_some_iff ht count) holds r
  | fails t =>
    have ht : t.Lexical := h.resolve_right id
    rw [resolve, value, Fits, tokens, bareCount_cons_of_ne (by decide)]
    exact value?_bind_pure_eq_some_iff (t.value?_resolve_eq_some_iff ht count) fails r
  | every fs ih =>
    have hfs := areConjuncts_iff.1 (h.resolve_left id).2
    have hall := value?_resolveAll_eq_some_iff (fun f hf => ih f hf (.inl (hfs f hf))) count
    rw [resolve, value, Fits, bareCount_tokens_every]
    exact value?_bind_pure_eq_some_iff hall every r
  | some fs ih =>
    have hfs := areConjunctions_iff.1 (h.resolve_right id).2
    have hall := value?_resolveAll_eq_some_iff (fun f hf => ih f hf (.inr (hfs f hf))) count
    rw [resolve, value, Fits, bareCount_tokens_some]
    exact value?_bind_pure_eq_some_iff hall some r

/-- The parentheses around a body are no underscores. -/
theorem bareCount_bodyTokens {f : Formula WrittenTerm} (h : f.IsBody) :
    bareCount f.bodyTokens = bareCount f.tokens := by
  cases f with
  | some fs => rw [bareCount_bodyTokens_some, bareCount_tokens_some]
  | _ => exact absurd h id

end Formula

/-! ## Probabilities -/

theorem exists_magnitude? {ds : List Char} (h : IsDigits ds) :
    ∃ n, Decimal.readExponent?.magnitude? ds = some n :=
  ⟨_, if_pos h⟩

/-- The digits of an exponent can be read. -/
theorem exists_readExponent? {cs : List Char} (h : IsExponent cs) :
    ∃ n, Decimal.readExponent? cs = some n := by
  obtain rfl | ⟨e, sign, ds, rfl, he, hsign, hds⟩ := h
  · exact ⟨0, rfl⟩
  · obtain ⟨n, hn⟩ := exists_magnitude? hds
    rcases hsign with rfl | rfl | rfl
    · -- without a sign the first character is a digit
      obtain ⟨d, ds, rfl⟩ := List.exists_cons_of_ne_nil hds.1
      have hd : d.isDigit = true := List.all_eq_true.1 hds.2 d List.mem_cons_self
      have hplus : d ≠ '+' := by
        rintro rfl
        exact absurd hd (by decide)
      have hminus : d ≠ '-' := by
        rintro rfl
        exact absurd hd (by decide)
      exact ⟨n, by simp [Decimal.readExponent?, he, hn, hplus, hminus]⟩
    · exact ⟨n, by simp [Decimal.readExponent?, he, hn]⟩
    · exact ⟨-n, by simp [Decimal.readExponent?, he, hn]⟩

/-- A text of the form of a probability is read as a decimal. -/
theorem exists_read?_of_isProbability {cs : List Char} (h : IsProbability cs) :
    ∃ d, Decimal.read? cs = some d := by
  obtain ⟨whole, fraction, exponent, rfl, hwhole, hfraction, hexponent⟩ := h
  obtain ⟨e, he⟩ := exists_readExponent? hexponent
  -- neither a point nor the letter of an exponent is a digit
  have hexp : ∀ x, exponent.head? = some x → x.isDigit = false ∧ x ≠ '.' := by
    obtain rfl | ⟨c, sign, ds, rfl, rfl | rfl, -⟩ := hexponent
    · simp
    · rintro x ⟨⟩
      decide
    · rintro x ⟨⟩
      decide
  have hrest : ∀ x, (fraction ++ exponent).head? = some x → x.isDigit = false := by
    obtain rfl | ⟨ds, rfl, -⟩ := hfraction
    · exact fun x hx => (hexp x hx).1
    · rintro x ⟨⟩
      decide
  obtain ⟨htake, hdrop⟩ := Reader.takeWhile_append_of_all hwhole.2 hrest
  rw [List.append_assoc, Decimal.read?]
  simp only [htake, hdrop, if_neg hwhole.1]
  obtain rfl | ⟨ds, rfl, hds⟩ := hfraction
  · rw [List.nil_append]
    split
    · rename_i rest
      exact absurd rfl (hexp '.' rfl).2
    · exact ⟨_, by rw [he]; rfl⟩
  · obtain ⟨htake, hdrop⟩ := Reader.takeWhile_append_of_all hds.2 fun x hx => (hexp x hx).1
    simp only [List.cons_append, htake, hdrop, if_neg hds.1, he]
    exact ⟨_, rfl⟩

/-- The number that a probability writes. -/
def writtenProbability {α : Type} [Probability α] (cs : List Char) : α :=
  Probability.ofDecimal ((Decimal.read? cs).getD default)

/-- What has the form of a probability is read as a number. -/
theorem map_read?_of_isProbability {α : Type} [Probability α] {cs : List Char}
    (h : IsProbability cs) :
    (Decimal.read? cs).map Probability.ofDecimal = some (writtenProbability cs : α) := by
  obtain ⟨d, hd⟩ := exists_read?_of_isProbability h
  rw [writtenProbability, hd]
  rfl

/-! ## Statements -/

/-- A head is resolved when it is a compound and its integers are timestamps, and then to its value. -/
theorem WrittenHead.value?_resolve_eq_some_iff {h : WrittenHead} (hh : h.term.Lexical) (count : Nat)
    (r : Term × Nat) :
    value? h.resolve count = some r ↔
      ((∃ f ts, h.term = .compound f ts) ∧ h.term.Fits) ∧
        (h.term.value count, count + bareCount h.term.tokens) = r := by
  constructor
  · intro hr
    obtain ⟨hfits, hvalue⟩ :=
      (h.term.value?_resolve_eq_some_iff hh count r).1 (value?_term hr)
    exact ⟨⟨exists_compound hr, hfits⟩, hvalue⟩
  · rintro ⟨⟨⟨f, ts, hf⟩, hfits⟩, rfl⟩
    rw [value?_resolve, (h.term.value?_resolve_eq_some_iff hh count _).2 ⟨hfits, rfl⟩, hf]
    rfl

namespace Statement

variable {α : Type} [Probability α]

/-- The clauses and queries that a statement writes after a number of bare underscores. -/
def value (count : Nat) : Statement → Program α
  | query t => ⟨[], [t.value count]⟩
  | chance p h => ⟨[.chance (writtenProbability p) (h.term.value count)], []⟩
  | rule h body =>
    ⟨(body.value (count + bareCount h.term.tokens)).alternatives.map fun literals =>
      .rule ⟨h.term.value count, literals⟩, []⟩
  | fact h => ⟨[.fact (h.term.value count)], []⟩

/-- The integers of a statement are timestamps. -/
def Fits : Statement → Prop
  | query t => t.Fits
  | chance _ h => h.term.Fits
  | rule h body => h.term.Fits ∧ body.Fits
  | fact h => h.term.Fits

variable (α) in
/-- A statement that a program can hold: a clause has a compound head, integers are timestamps, and
a probability lies between zero and one. -/
structure Admissible (s : Statement) : Prop where
  compound_head : s.HasCompoundHead
  fits : s.Fits
  inUnit : ∀ p h, s = chance p h → Probability.inUnit (writtenProbability p : α) = true

/-- A query needs integers that fit. -/
theorem admissible_query_iff {t : WrittenTerm} : (query t).Admissible α ↔ t.Fits :=
  ⟨fun h => h.fits, fun h => ⟨trivial, h, nofun⟩⟩

/-- A probabilistic fact needs a head, integers that fit and a number between zero and one. -/
theorem admissible_chance_iff {p : List Char} {h : WrittenHead} :
    (chance p h).Admissible α ↔
      ((∃ f ts, h.term = .compound f ts) ∧ h.term.Fits) ∧
        Probability.inUnit (writtenProbability p : α) = true := by
  constructor
  · intro hs
    exact ⟨⟨hs.compound_head, hs.fits⟩, hs.inUnit p h rfl⟩
  · rintro ⟨⟨hhead, hfits⟩, hunit⟩
    refine ⟨hhead, hfits, ?_⟩
    rintro _ _ ⟨⟩
    exact hunit

theorem admissible_rule_iff {h : WrittenHead} {body : Formula WrittenTerm} :
    (rule h body).Admissible α ↔
      ((∃ f ts, h.term = .compound f ts) ∧ h.term.Fits) ∧ body.Fits :=
  ⟨fun hs => ⟨⟨hs.compound_head, hs.fits.1⟩, hs.fits.2⟩,
    fun hs => ⟨hs.1.1, ⟨hs.1.2, hs.2⟩, nofun⟩⟩

theorem admissible_fact_iff {h : WrittenHead} :
    (fact h).Admissible α ↔ (∃ f ts, h.term = .compound f ts) ∧ h.term.Fits :=
  ⟨fun hs => ⟨hs.compound_head, hs.fits⟩, fun hs => ⟨hs.1, hs.2, nofun⟩⟩

/-- The underscores of a statement are those of its terms. -/
theorem bareCount_tokens {s : Statement} (hs : s.Lexical) :
    bareCount s.tokens =
      match s with
      | query t => bareCount t.tokens
      | chance _ h => bareCount h.term.tokens
      | rule h body => bareCount h.term.tokens + bareCount body.tokens
      | fact h => bareCount h.term.tokens := by
  have hpoint : bareCount s.tokens = bareCount s.words := bareCount_append s.words [['.']]
  rw [hpoint]
  cases s with
  | query t =>
    rw [words, bareCount_cons_of_ne (by decide), bareCount_cons_of_ne (by decide), bareCount_append]
    rfl
  | chance p h => rw [words, bareCount_cons_of_ne hs.1.ne_bare, bareCount_cons_of_ne (by decide)]
  | rule h body =>
    rw [words, bareCount_append, bareCount_cons_of_ne (by decide),
      Formula.bareCount_bodyTokens hs.2.2]
  | fact h => rfl

/-- A statement is resolved when it is admissible, and then to its value. -/
theorem value?_resolve_eq_some_iff {s : Statement} (hs : s.Lexical) (count : Nat)
    (r : Program α × Nat) :
    value? s.resolve count = some r ↔
      s.Admissible α ∧ (s.value count, count + bareCount s.tokens) = r := by
  rw [bareCount_tokens hs]
  cases s with
  | query t =>
    rw [admissible_query_iff]
    exact value?_bind_pure_eq_some_iff (t.value?_resolve_eq_some_iff hs count)
      (fun t => ⟨[], [t]⟩) r
  | chance p h =>
    rw [value?_resolve_chance, map_read?_of_isProbability hs.1, admissible_chance_iff]
    simp only [Option.bind_eq_some_iff, Option.map_eq_some_iff, Option.filter_eq_some_iff,
      Option.some.injEq, h.value?_resolve_eq_some_iff hs.2]
    constructor
    · rintro ⟨_, ⟨hhead, rfl⟩, _, ⟨rfl, hunit⟩, rfl⟩
      exact ⟨⟨hhead, hunit⟩, rfl⟩
    · rintro ⟨⟨hhead, hunit⟩, rfl⟩
      exact ⟨_, ⟨hhead, rfl⟩, _, ⟨rfl, hunit⟩, rfl⟩
  | rule h body =>
    have hbody := fun count => Formula.value?_resolve_eq_some_iff (f := body)
      (.inl hs.2.2.isConjunct) count
    rw [value?_resolve_rule, admissible_rule_iff]
    simp only [Option.bind_eq_some_iff, Option.map_eq_some_iff, hbody,
      h.value?_resolve_eq_some_iff hs.1]
    rw [← Nat.add_assoc]
    constructor
    · rintro ⟨_, ⟨hhead, rfl⟩, _, ⟨hfits, rfl⟩, hr⟩
      exact ⟨⟨hhead, hfits⟩, hr⟩
    · rintro ⟨⟨hhead, hfits⟩, rfl⟩
      exact ⟨_, ⟨hhead, rfl⟩, _, ⟨hfits, rfl⟩, rfl⟩
  | fact h =>
    rw [admissible_fact_iff]
    exact value?_bind_pure_eq_some_iff (h.value?_resolve_eq_some_iff hs.1 count)
      (fun head => ⟨[.fact head], []⟩) r

end Statement

variable {α : Type} [Probability α]

/-- The program that statements write after a number of bare underscores. -/
def programOf (count : Nat) : List Statement → Program α
  | [] => .empty
  | s :: ss => s.value count ++ programOf (count + bareCount s.tokens) ss

/-- Statements that come later are numbered after the underscores of the earlier ones. -/
theorem programOf_append (count : Nat) (ss ss' : List Statement) :
    (programOf count (ss ++ ss') : Program α) =
      programOf count ss ++ programOf (count + bareCount (ss.flatMap Statement.tokens)) ss' := by
  induction ss generalizing count with
  | nil => rfl
  | cons s ss ih =>
    rw [List.cons_append, programOf, programOf, ih, Program.append_assoc, List.flatMap_cons,
      bareCount_append, Nat.add_assoc]

/-- Statements are resolved when all of them are admissible, to the program that they stand for. -/
theorem value?_resolveStatements_eq_some_iff {ss : List Statement} (hss : ∀ s ∈ ss, s.Lexical)
    (count : Nat) (r : Program α × Nat) :
    value? (resolveStatements ss) count = some r ↔
      (∀ s ∈ ss, s.Admissible α) ∧
        (programOf count ss, count + bareCount (ss.flatMap Statement.tokens)) = r := by
  induction ss generalizing count r with
  | nil => simp [resolveStatements, programOf]
  | cons s ss ih =>
    rw [List.forall_mem_cons] at hss
    simp only [value?_resolveStatements_cons, Option.bind_eq_some_iff, Option.map_eq_some_iff,
      s.value?_resolve_eq_some_iff hss.1, ih hss.2]
    rw [List.forall_mem_cons, programOf, List.flatMap_cons, bareCount_append, ← Nat.add_assoc]
    constructor
    · rintro ⟨_, ⟨hs, rfl⟩, _, ⟨hss, rfl⟩, rfl⟩
      exact ⟨⟨hs, hss⟩, rfl⟩
    · rintro ⟨⟨hs, hss⟩, rfl⟩
      exact ⟨_, ⟨hs, rfl⟩, _, ⟨hss, rfl⟩, rfl⟩

end Syntax

/-- A text that is a program is a layout of admissible statements, which write the program. -/
theorem Program.exists_writes_of_ofText {α : Type} [Probability α] {text : String} {p : Program α}
    (h : Program.ofText text = .ok p) :
    ∃ ss, Writes text.toList ss ∧ (∀ s ∈ ss, s.Admissible α) ∧ programOf 0 ss = p := by
  obtain ⟨ss, n, hw, hv⟩ := ofText_eq_ok_iff.1 h
  rw [value?_resolveStatements_eq_some_iff hw.2] at hv
  exact ⟨ss, hw, hv.1, congrArg Prod.fst hv.2⟩

/-- A layout of admissible statements is the program that they write. -/
theorem Program.ofText_of_writes {α : Type} [Probability α] {text : String} {ss : List Statement}
    (hw : Writes text.toList ss) (hss : ∀ s ∈ ss, s.Admissible α) :
    Program.ofText text = .ok (programOf 0 ss : Program α) := by
  rw [ofText_eq_ok_iff]
  exact ⟨ss, _, hw, (value?_resolveStatements_eq_some_iff hw.2 0 _).2 ⟨hss, rfl⟩⟩

/-- A text is a program exactly when it is a layout of admissible statements of the grammar, and it is the
program that they write. -/
theorem Program.ofText_eq_ok_iff_writes {α : Type} [Probability α] {text : String} {p : Program α} :
    Program.ofText text = .ok p ↔
      ∃ ss, Writes text.toList ss ∧ (∀ s ∈ ss, s.Admissible α) ∧ programOf 0 ss = p := by
  constructor
  · exact exists_writes_of_ofText
  · rintro ⟨ss, hw, hss, rfl⟩
    exact ofText_of_writes hw hss

example : Program.ofText "win(_) :- (heads; tails(_)), \\+lost." =
    .ok (α := Program Float) ⟨[
      .rule ⟨.compound "win" [.var "_G1"],
        [⟨.compound "heads" [], true⟩, ⟨.compound "lost" [], false⟩]⟩,
      .rule ⟨.compound "win" [.var "_G1"],
        [⟨.compound "tails" [.var "_G2"], true⟩, ⟨.compound "lost" [], false⟩]⟩], []⟩ := by
  decide +kernel

end TimedInference
