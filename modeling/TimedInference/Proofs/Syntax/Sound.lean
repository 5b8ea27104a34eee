import TimedInference.Proofs.Syntax.Reading
import TimedInference.Proofs.Syntax.Tokens

/-!
# What is read is written

Every value that the grammar's readers give is written by the text they take: the tokens of the value are
laid out in it (`term_sound`, `disjunction_sound` and one lemma for each kind of statement).
-/

namespace TimedInference.Syntax

open Reader

variable {α : Type}

/-! ## Text that is taken -/

/-- The text between two places begins with the first of the tokens and lays them out. -/
def Takes (c c' : Cursor) (ts : List Token) : Prop := ∃ text, c.rest = text ++ c'.rest ∧ Tight ts text

/-- The text between two places lays out the tokens. -/
def TakesSpaced (c c' : Cursor) (ts : List Token) : Prop :=
  ∃ text, c.rest = text ++ c'.rest ∧ Laid ts text

/-- A reader that takes a text takes this text as one token. -/
theorem Takes.of_eq {c c' : Cursor} {t : Token} (h : c.rest = t ++ c'.rest) : Takes c c' [t] :=
  ⟨t, h, tight_singleton t⟩

theorem TakesSpaced.nil (c : Cursor) : TakesSpaced c c [] := ⟨[], rfl, rfl⟩

/-- Tokens that are taken one group after the other are taken together. -/
theorem TakesSpaced.append {c c' c'' : Cursor} {ts us : List Token} (h : TakesSpaced c c' ts)
    (h' : TakesSpaced c' c'' us) : TakesSpaced c c'' (ts ++ us) := by
  obtain ⟨xs, hx, ht⟩ := h
  obtain ⟨ys, hy, hu⟩ := h'
  exact ⟨xs ++ ys, by rw [hx, hy, List.append_assoc], ht.append hu⟩

/-- If the first group begins at once, so do both together. -/
theorem Takes.append {c c' c'' : Cursor} {ts us : List Token} (hne : ts ≠ []) (h : Takes c c' ts)
    (h' : TakesSpaced c' c'' us) : Takes c c'' (ts ++ us) := by
  obtain ⟨xs, hx, ht⟩ := h
  obtain ⟨ys, hy, hu⟩ := h'
  exact ⟨xs ++ ys, by rw [hx, hy, List.append_assoc], ht.append hne hu⟩

/-- What is read after white space and comments. -/
theorem spaced_sound {p : Reader α} {c c' : Cursor} {a : α} {t : Token} {ts : List Token}
    (ht : t ≠ []) (h : (spaced p).Gives c a c')
    (hp : ∀ c₁, c₁.rest.length ≤ c.rest.length → p.Gives c₁ a c' → Takes c₁ c' (t :: ts)) :
    TakesSpaced c c' (t :: ts) := by
  obtain ⟨_, c₁, hb, ha⟩ := gives_bind_iff.1 h
  have hskip : skipBlanks false c.offset c.rest = c₁ := congrArg Prod.snd (Option.some.inj hb)
  obtain ⟨g, hg, -, hgap⟩ := skipBlanks_sound hskip
  obtain ⟨text, htext, hlaid⟩ := hp c₁ (by rw [hg, List.length_append]; omega) ha
  refine ⟨g ++ text, by rw [hg, htext, List.append_assoc],
    hlaid.laid.gap (hgap ?_) (List.cons_ne_nil t ts)⟩
  -- a comment that is skipped ends before the first token, because there is one
  obtain ⟨rest, rfl, -⟩ := hlaid
  rw [htext]
  simp [ht]

/-- A fixed text is taken as one token. -/
theorem exactly_sound {m : List Char} {c c' : Cursor} {u : Unit} (h : (exactly m).Gives c u c') :
    Takes c c' [m] := .of_eq (gives_exactly_iff.1 h).1

/-- A mark is taken after white space. -/
theorem mark_sound {m : String} (hm : m.toList ≠ []) {c c' : Cursor} {u : Unit}
    (h : (mark m).Gives c u c') : TakesSpaced c c' [m.toList] :=
  spaced_sound hm h fun _ _ h => exactly_sound h

/-! ## Tokens -/

/-- One character of a class, and as many of another as there are. -/
theorem one_run_sound {p q : Char → Bool} {c c₁ c' : Cursor} {x : Char} {xs : List Char}
    (hx : (one p).Gives c x c₁) (hxs : (run q).Gives c₁ xs c') :
    p x = true ∧ xs.all q = true ∧ c.rest = x :: xs ++ c'.rest := by
  obtain ⟨hrest, hpx, -⟩ := gives_one_iff.1 hx
  obtain ⟨rfl, hdrop, -⟩ := gives_run_iff.1 hxs
  refine ⟨hpx, List.all_takeWhile, ?_⟩
  rw [hrest, hdrop, List.cons_append, List.takeWhile_append_dropWhile]

/-- A run that is not empty takes characters of its class. -/
theorem run1_sound {p : Char → Bool} {c c' : Cursor} {xs : List Char}
    (h : (run1 p).Gives c xs c') : xs ≠ [] ∧ xs.all p = true ∧ c.rest = xs ++ c'.rest := by
  obtain ⟨x, c₁, hx, h⟩ := gives_bind_iff.1 h
  obtain ⟨ys, c₂, hys, h⟩ := gives_bind_iff.1 h
  obtain ⟨rfl, rfl⟩ := gives_pure_iff.1 h
  obtain ⟨hpx, hall, hrest⟩ := one_run_sound hx hys
  exact ⟨List.cons_ne_nil x ys, by rw [List.all_cons, hpx, hall]; rfl, hrest⟩

theorem digits_sound {c c' : Cursor} {ds : List Char} (h : (run1 Char.isDigit).Gives c ds c') :
    IsDigits ds ∧ c.rest = ds ++ c'.rest := by
  obtain ⟨hne, hall, hrest⟩ := run1_sound h
  exact ⟨⟨hne, hall⟩, hrest⟩

/-- One character of a class and name characters after it. -/
theorem name_sound {construct : Construct} {p : Char → Bool} {c c' : Cursor} {name : String}
    (h : (named construct do
      let first ← one p
      let rest ← run isNameChar
      return String.ofList (first :: rest)).Gives c name c') :
    (∃ x xs, name.toList = x :: xs ∧ p x = true ∧ xs.all isNameChar = true) ∧
      Takes c c' [name.toList] := by
  obtain ⟨x, c₁, hx, h⟩ := gives_bind_iff.1 (gives_named_iff.1 h)
  obtain ⟨ys, c₂, hys, h⟩ := gives_bind_iff.1 h
  obtain ⟨rfl, rfl⟩ := gives_pure_iff.1 h
  obtain ⟨hpx, hall, hrest⟩ := one_run_sound hx hys
  exact ⟨⟨x, ys, String.toList_ofList, hpx, hall⟩, .of_eq (by rw [hrest, String.toList_ofList])⟩

/-- What is read as a functor is one. -/
theorem functor_sound {c c' : Cursor} {name : String} (h : functor.Gives c name c') :
    IsFunctor name.toList ∧ Takes c c' [name.toList] := name_sound h

/-- What is read as a variable is one. -/
theorem variableName_sound {c c' : Cursor} {name : String} (h : variableName.Gives c name c') :
    IsVariable name.toList ∧ Takes c c' [name.toList] := name_sound h

/-- What is read as an integer is written by its sign and its digits. -/
theorem integer_sound {c c' : Cursor} {t : WrittenTerm} (h : integer.Gives c t c') :
    t.Lexical ∧ Takes c c' t.tokens := by
  obtain ⟨o, c₁, ho, h⟩ := gives_bind_iff.1 (gives_named_iff.1 h)
  obtain ⟨rfl, rfl⟩ := gives_offset_iff.1 ho
  obtain ⟨negative, c₂, hn, h⟩ := gives_bind_iff.1 h
  obtain ⟨ds, c₃, hds, h⟩ := gives_bind_iff.1 h
  obtain ⟨rfl, rfl⟩ := gives_pure_iff.1 h
  obtain ⟨hdigits, hrest⟩ := digits_sound hds
  refine ⟨hdigits, .of_eq ?_⟩
  rcases gives_orDefault_iff.1 hn with hn | ⟨-, rfl, rfl⟩
  · obtain ⟨_, c₄, hm, hn⟩ := gives_bind_iff.1 hn
    obtain ⟨rfl, rfl⟩ := gives_pure_iff.1 hn
    rw [(gives_exactly_iff.1 hm).1, hrest]
    rfl
  · exact hrest

/-- A part that may be left out. -/
theorem optional_sound {p : Reader (List Char)} {good : List Char → Prop}
    (hp : ∀ {c c' xs}, p.Gives c xs c' → good xs ∧ c.rest = xs ++ c'.rest) {c c' : Cursor}
    {xs : List Char} (h : (orDefault p []).Gives c xs c') :
    (xs = [] ∨ good xs) ∧ c.rest = xs ++ c'.rest := by
  rcases gives_orDefault_iff.1 h with h | ⟨-, rfl, rfl⟩
  · exact ⟨.inr (hp h).1, (hp h).2⟩
  · exact ⟨.inl rfl, rfl⟩

/-- A fraction is a point and digits. -/
theorem fraction_sound {c c' : Cursor} {xs : List Char}
    (h : (do let point ← one (· = '.'); let digits ← run1 Char.isDigit
             return point :: digits : Reader (List Char)).Gives c xs c') :
    (∃ ds, xs = '.' :: ds ∧ IsDigits ds) ∧ c.rest = xs ++ c'.rest := by
  obtain ⟨point, c₁, hp, h⟩ := gives_bind_iff.1 h
  obtain ⟨ds, c₂, hds, h⟩ := gives_bind_iff.1 h
  obtain ⟨rfl, rfl⟩ := gives_pure_iff.1 h
  obtain ⟨hpr, hpc, -⟩ := gives_one_iff.1 hp
  obtain ⟨hd, hdr⟩ := digits_sound hds
  obtain rfl : point = '.' := of_decide_eq_true hpc
  exact ⟨⟨ds, rfl, hd⟩, by rw [hpr, hdr, List.cons_append]⟩

/-- A sign is a plus or a minus. -/
theorem sign_sound {c c' : Cursor} {xs : List Char}
    (h : (do let s ← one (fun c => c = '+' || c = '-'); return [s] : Reader (List Char)).Gives c xs c') :
    (xs = ['+'] ∨ xs = ['-']) ∧ c.rest = xs ++ c'.rest := by
  obtain ⟨x, c₁, hx, h⟩ := gives_bind_iff.1 h
  obtain ⟨rfl, rfl⟩ := gives_pure_iff.1 h
  obtain ⟨hxr, hxc, -⟩ := gives_one_iff.1 hx
  have hsign : x = '+' ∨ x = '-' := by simpa using hxc
  refine ⟨hsign.imp ?_ ?_, hxr⟩
  · exact fun hx => congrArg ([·]) hx
  · exact fun hx => congrArg ([·]) hx

/-- An exponent is its letter, perhaps a sign, and digits. -/
theorem exponent_sound {c c' : Cursor} {xs : List Char}
    (h : (do
        let letter ← one fun c => c = 'e' || c = 'E'
        let sign ← orDefault (do let s ← one (fun c => c = '+' || c = '-'); return [s]) []
        let digits ← run1 Char.isDigit
        return letter :: (sign ++ digits) : Reader (List Char)).Gives c xs c') :
    (∃ letter sign ds, xs = letter :: (sign ++ ds) ∧ (letter = 'e' ∨ letter = 'E') ∧
      (sign = [] ∨ sign = ['+'] ∨ sign = ['-']) ∧ IsDigits ds) ∧ c.rest = xs ++ c'.rest := by
  obtain ⟨letter, c₁, hl, h⟩ := gives_bind_iff.1 h
  obtain ⟨sign, c₂, hs, h⟩ := gives_bind_iff.1 h
  obtain ⟨ds, c₃, hds, h⟩ := gives_bind_iff.1 h
  obtain ⟨rfl, rfl⟩ := gives_pure_iff.1 h
  obtain ⟨hlr, hlc, -⟩ := gives_one_iff.1 hl
  obtain ⟨hsign, hsr⟩ := optional_sound sign_sound hs
  obtain ⟨hd, hdr⟩ := digits_sound hds
  refine ⟨⟨letter, sign, ds, rfl, by simpa using hlc, hsign, hd⟩, ?_⟩
  rw [hlr, hsr, hdr, List.cons_append, List.append_assoc]

/-- What is read as a probability has the form of one, and is one token. -/
theorem probability_sound {c c' : Cursor} {p : List Char} (h : probability.Gives c p c') :
    IsProbability p ∧ Takes c c' [p] := by
  obtain ⟨whole, c₁, hw, h⟩ := gives_bind_iff.1 (gives_named_iff.1 h)
  obtain ⟨fraction, c₂, hf, h⟩ := gives_bind_iff.1 h
  obtain ⟨exponent, c₃, he, h⟩ := gives_bind_iff.1 h
  obtain ⟨rfl, rfl⟩ := gives_pure_iff.1 h
  obtain ⟨hwd, hwr⟩ := digits_sound hw
  obtain ⟨hfd, hfr⟩ := optional_sound fraction_sound hf
  obtain ⟨hed, her⟩ := optional_sound exponent_sound he
  refine ⟨⟨whole, fraction, exponent, rfl, hwd, hfd, hed⟩, .of_eq ?_⟩
  rw [hwr, hfr, her]
  simp only [List.append_assoc]

/-! ## Terms -/

/-- The reader gives only values with a property, and takes only texts that write them. -/
def Sound (p : Reader α) (tokens : α → List Token) (good : α → Prop) : Prop :=
  ∀ c a c', p.Gives c a c' → good a ∧ Takes c c' (tokens a)

section

variable {p : Reader α} {tokens : α → List Token} {good : α → Prop}

/-- A sound reader is sound after white space. -/
theorem Sound.skipping (hp : Sound p tokens good)
    (hne : ∀ a, good a → ∃ t ts, tokens a = t :: ts ∧ t ≠ []) {c c' : Cursor} {a : α}
    (h : (spaced p).Gives c a c') : good a ∧ TakesSpaced c c' (tokens a) := by
  obtain ⟨-, c₁, -, ha⟩ := gives_bind_iff.1 h
  have hgood := (hp c₁ a c' ha).1
  obtain ⟨t, ts, ht, htne⟩ := hne a hgood
  rw [ht]
  refine ⟨hgood, spaced_sound htne h fun c₂ _ h₂ => ?_⟩
  rw [← ht]
  exact (hp c₂ a c' h₂).2

/-- A repetition takes the tokens of all its values. -/
theorem Sound.many {q : Reader α}
    (hq : ∀ c a c', q.Gives c a c' → good a ∧ TakesSpaced c c' (tokens a)) (fuel : Nat)
    {c c' : Cursor} {as : List α} (h : (many q fuel).Gives c as c') :
    (∀ a ∈ as, good a) ∧ TakesSpaced c c' (as.flatMap tokens) := by
  induction fuel generalizing c as with
  | zero =>
    obtain ⟨rfl, rfl⟩ := gives_pure_iff.1 h
    exact ⟨by simp, .nil c'⟩
  | succ fuel ih =>
    rcases gives_many_succ h with ⟨rfl, rfl⟩ | ⟨a, rest, c₁, rfl, ha, hr⟩
    · exact ⟨by simp, .nil c'⟩
    · obtain ⟨hga, hta⟩ := hq c a c₁ ha
      obtain ⟨hgr, htr⟩ := ih hr
      rw [List.forall_mem_cons, List.flatMap_cons]
      exact ⟨⟨hga, hgr⟩, hta.append htr⟩

/-- A list writes a token, as it has a first member. -/
theorem exists_token_separated (hne : ∀ a, good a → ∃ t ts, tokens a = t :: ts ∧ t ≠ [])
    (separator : String) (as : List α) (h : as ≠ [] ∧ ∀ a ∈ as, good a) :
    ∃ t ts, separatedTokens separator tokens as = t :: ts ∧ t ≠ [] := by
  obtain ⟨a, as, rfl⟩ := List.exists_cons_of_ne_nil h.1
  obtain ⟨t, ts, ht, htne⟩ := hne a (h.2 a (by simp))
  exact ⟨t, _, by rw [separatedTokens, ht, List.cons_append], htne⟩

/-- A list of values is read soundly when each of them is. -/
theorem Sound.separated (hp : Sound p tokens good)
    (hne : ∀ a, good a → ∃ t ts, tokens a = t :: ts ∧ t ≠ []) {separator : String}
    (hs : separator.toList ≠ []) (fuel : Nat) :
    Sound (separated separator fuel p) (separatedTokens separator tokens)
      fun as => as ≠ [] ∧ ∀ a ∈ as, good a := by
  intro c as c' h
  obtain ⟨a, c₁, ha, h⟩ := gives_bind_iff.1 h
  obtain ⟨rest, c₂, hr, h⟩ := gives_bind_iff.1 h
  obtain ⟨rfl, rfl⟩ := gives_pure_iff.1 h
  obtain ⟨hga, hta⟩ := hp c a c₁ ha
  have hitem (d : Cursor) (b : α) (d' : Cursor)
      (hb : (do mark separator; spaced p : Reader α).Gives d b d') :
      good b ∧ TakesSpaced d d' (separator.toList :: tokens b) := by
    obtain ⟨_, d₁, hm, hb⟩ := gives_bind_iff.1 hb
    obtain ⟨hgb, htb⟩ := hp.skipping hne hb
    exact ⟨hgb, (mark_sound hs hm).append htb⟩
  obtain ⟨hgr, htr⟩ := Sound.many hitem fuel hr
  obtain ⟨t, ts, ht, -⟩ := hne a hga
  refine ⟨⟨by simp, ?_⟩, hta.append (by simp [ht]) htr⟩
  rw [List.forall_mem_cons]
  exact ⟨hga, hgr⟩

end

/-- A term begins with a token that has a character, and so do the constructs of bodies. -/
theorem WrittenTerm.exists_token {t : WrittenTerm} (h : t.Lexical) :
    ∃ tok toks, t.tokens = tok :: toks ∧ tok ≠ [] := by
  obtain ⟨tok, toks, ht⟩ := List.exists_cons_of_ne_nil t.tokens_ne_nil
  exact ⟨tok, toks, ht, (isPart_of_mem_tokens h tok (by simp [ht])).plain.1⟩

/-- A term that is read is written by the text that is taken. -/
theorem term_sound (fuel : Nat) : Sound (term fuel) WrittenTerm.tokens WrittenTerm.Lexical := by
  induction fuel with
  | zero =>
    intro c t c' h
    exact absurd h not_gives_failure
  | succ fuel ih =>
    intro c t c' h
    rw [term, gives_named_iff, gives_orElse_iff, gives_orElse_iff, gives_named_iff] at h
    rcases h with h | ⟨-, h | ⟨-, h⟩⟩
    · obtain ⟨name, c₁, hn, h⟩ := gives_bind_iff.1 h
      obtain ⟨rfl, rfl⟩ := gives_pure_iff.1 h
      exact variableName_sound hn
    · exact integer_sound h
    · obtain ⟨name, c₁, hn, h⟩ := gives_bind_iff.1 h
      obtain ⟨args, c₂, ha, h⟩ := gives_bind_iff.1 h
      obtain ⟨rfl, rfl⟩ := gives_pure_iff.1 h
      obtain ⟨hname, htake⟩ := functor_sound hn
      rcases gives_orDefault_iff.1 ha with ha | ⟨-, rfl, rfl⟩
      · obtain ⟨_, c₃, ho, ha⟩ := gives_bind_iff.1 ha
        obtain ⟨args', c₄, hs, ha⟩ := gives_bind_iff.1 ha
        obtain ⟨_, c₅, hc, ha⟩ := gives_bind_iff.1 ha
        obtain ⟨rfl, rfl⟩ := gives_pure_iff.1 ha
        -- parentheses hold at least one argument
        obtain ⟨⟨hne, hgood⟩, hargs⟩ := (ih.separated (fun _ => WrittenTerm.exists_token)
          (by decide) fuel).skipping
            (exists_token_separated (fun _ => WrittenTerm.exists_token) ",") hs
        obtain ⟨t, ts, rfl⟩ := List.exists_cons_of_ne_nil hne
        refine ⟨⟨hname, WrittenTerm.allLexical_iff.2 hgood⟩, ?_⟩
        rw [WrittenTerm.tokens_compound_cons]
        exact htake.append (by simp) ((mark_sound (by decide) ho).append
          (hargs.append (mark_sound (by decide) hc)))
      · exact ⟨⟨hname, trivial⟩, htake⟩

/-! ## Bodies -/

namespace Formula

theorem exists_token_conjunct {f : Formula WrittenTerm} (h : f.IsConjunct) :
    ∃ tok toks, f.tokens = tok :: toks ∧ tok ≠ [] := by
  obtain ⟨tok, toks, ht⟩ := List.exists_cons_of_ne_nil (tokens_ne_nil_of_isConjunct h)
  exact ⟨tok, toks, ht, (isPart_of_mem_tokens (.inl h) tok (by simp [ht])).plain.1⟩

theorem exists_token_conjunction {f : Formula WrittenTerm} (h : f.IsConjunction) :
    ∃ tok toks, f.tokens = tok :: toks ∧ tok ≠ [] := by
  obtain ⟨tok, toks, ht⟩ := List.exists_cons_of_ne_nil (tokens_ne_nil_of_isConjunction h)
  exact ⟨tok, toks, ht, (isPart_of_mem_tokens (.inr h) tok (by simp [ht])).plain.1⟩

theorem exists_token_body {f : Formula WrittenTerm} (h : f.IsBody) :
    ∃ tok toks, f.bodyTokens = tok :: toks ∧ tok ≠ [] := by
  obtain ⟨tok, toks, ht⟩ := List.exists_cons_of_ne_nil (bodyTokens_ne_nil h)
  exact ⟨tok, toks, ht, (isPart_of_mem_bodyTokens h tok (by simp [ht])).plain.1⟩

end Formula

/-- What is read as a negated atom is a conjunct. -/
theorem negation_sound (fuel : Nat) :
    Sound (negation fuel) Formula.tokens Formula.IsConjunct := by
  intro c f c' h
  obtain ⟨_, c₁, hm, h⟩ := gives_bind_iff.1 (gives_named_iff.1 h)
  obtain ⟨t, c₂, ht, h⟩ := gives_bind_iff.1 h
  obtain ⟨rfl, rfl⟩ := gives_pure_iff.1 h
  obtain ⟨hlex, htake⟩ := (term_sound fuel).skipping (fun _ => WrittenTerm.exists_token) ht
  exact ⟨hlex, (exactly_sound hm).append (by simp) htake⟩

/-- A part of a conjunction that is read is written by the text that is taken. -/
theorem conjunct_sound {fuel : Nat} {inner : Reader (Formula WrittenTerm)}
    (hi : Sound inner Formula.bodyTokens Formula.IsBody) :
    Sound (conjunct fuel inner) Formula.tokens Formula.IsConjunct := by
  intro c f c' h
  rw [conjunct, gives_orElse_iff, gives_orElse_iff, gives_named_iff] at h
  rcases h with h | ⟨-, h | ⟨-, h⟩⟩
  · exact negation_sound fuel c f c' h
  · obtain ⟨_, c₁, ho, h⟩ := gives_bind_iff.1 h
    obtain ⟨g, c₂, hg, h⟩ := gives_bind_iff.1 h
    obtain ⟨_, c₃, hc, h⟩ := gives_bind_iff.1 h
    obtain ⟨rfl, rfl⟩ := gives_pure_iff.1 h
    obtain ⟨hbody, htake⟩ := hi.skipping (fun _ => Formula.exists_token_body) hg
    -- parentheses hold a disjunction, also around a single conjunction
    cases f with
    | some fs =>
      refine ⟨hbody, ?_⟩
      rw [Formula.tokens_some hbody.1]
      exact (exactly_sound ho).append (by simp) (htake.append (mark_sound (by decide) hc))
    | _ => exact absurd hbody id
  · obtain ⟨t, c₁, ht, h⟩ := gives_bind_iff.1 h
    obtain ⟨rfl, rfl⟩ := gives_pure_iff.1 h
    exact term_sound fuel c t c' ht

/-- A conjunction is read soundly when the groups in it are. -/
theorem conjunction_sound {fuel : Nat} {inner : Reader (Formula WrittenTerm)}
    (hi : Sound inner Formula.bodyTokens Formula.IsBody) :
    Sound (conjunction fuel inner) Formula.tokens Formula.IsConjunction := by
  intro c f c' h
  obtain ⟨fs, c₁, hf, h⟩ := gives_bind_iff.1 (gives_named_iff.1 h)
  obtain ⟨rfl, rfl⟩ := gives_pure_iff.1 h
  obtain ⟨⟨hne, hgood⟩, htake⟩ := (conjunct_sound hi).separated
    (fun _ => Formula.exists_token_conjunct) (by decide) fuel c fs c' hf
  rw [Formula.tokens_every]
  exact ⟨⟨hne, Formula.areConjuncts_iff.2 hgood⟩, htake⟩

/-- A body that is read is written by the text that is taken. -/
theorem disjunction_sound (fuel : Nat) :
    Sound (disjunction fuel) Formula.bodyTokens Formula.IsBody := by
  induction fuel with
  | zero =>
    intro c f c' h
    exact absurd h not_gives_failure
  | succ fuel ih =>
    intro c f c' h
    rw [disjunction, gives_named_iff] at h
    obtain ⟨fs, c₁, hf, h⟩ := gives_bind_iff.1 h
    obtain ⟨rfl, rfl⟩ := gives_pure_iff.1 h
    obtain ⟨⟨hne, hgood⟩, htake⟩ := (conjunction_sound ih).separated
      (fun _ => Formula.exists_token_conjunction) (by decide) fuel c fs c' hf
    rw [Formula.bodyTokens_some]
    exact ⟨⟨hne, Formula.areConjunctions_iff.2 hgood⟩, htake⟩

/-! ## Statements -/

/-- What is read as a head is a term. -/
theorem head_sound (fuel : Nat) : Sound (head fuel) (fun h => h.term.tokens) (·.term.Lexical) := by
  intro c hd c' h
  obtain ⟨o, c₁, ho, h⟩ := gives_bind_iff.1 h
  obtain ⟨t, c₂, ht, h⟩ := gives_bind_iff.1 h
  obtain ⟨rfl, rfl⟩ := gives_pure_iff.1 h
  obtain ⟨rfl, rfl⟩ := gives_offset_iff.1 ho
  exact term_sound fuel _ t _ ht

/-- What is read as a query is its word and a term in parentheses. -/
theorem query_sound {fuel : Nat} {c c' : Cursor} {s : Statement} (h : (query fuel).Gives c s c') :
    ∃ t, s = .query t ∧ t.Lexical ∧
      Takes c c' ("query".toList :: ['('] :: (t.tokens ++ [[')']])) := by
  obtain ⟨_, c₁, hq, h⟩ := gives_bind_iff.1 (gives_named_iff.1 h)
  obtain ⟨_, c₂, ho, h⟩ := gives_bind_iff.1 h
  obtain ⟨t, c₃, ht, h⟩ := gives_bind_iff.1 h
  obtain ⟨_, c₄, hc, h⟩ := gives_bind_iff.1 h
  obtain ⟨rfl, rfl⟩ := gives_pure_iff.1 h
  obtain ⟨hlex, htake⟩ := (term_sound fuel).skipping (fun _ => WrittenTerm.exists_token) ht
  exact ⟨t, rfl, hlex, (exactly_sound hq).append (by simp) ((mark_sound (by decide) ho).append
    (htake.append (mark_sound (by decide) hc)))⟩

/-- What is read as a probabilistic fact is a probability, a separator and a head. -/
theorem chance_sound {fuel : Nat} {c c' : Cursor} {s : Statement}
    (h : (chance fuel).Gives c s c') :
    ∃ p hd, s = .chance p hd ∧ IsProbability p ∧ hd.term.Lexical ∧
      Takes c c' (p :: "::".toList :: hd.term.tokens) := by
  obtain ⟨p, c₁, hp, h⟩ := gives_bind_iff.1 (gives_named_iff.1 h)
  obtain ⟨_, c₂, hm, h⟩ := gives_bind_iff.1 h
  obtain ⟨hd, c₃, hh, h⟩ := gives_bind_iff.1 h
  obtain ⟨rfl, rfl⟩ := gives_pure_iff.1 h
  obtain ⟨hprob, htake⟩ := probability_sound hp
  obtain ⟨hlex, htake'⟩ := (head_sound fuel).skipping (fun _ => WrittenTerm.exists_token) hh
  exact ⟨p, hd, rfl, hprob, hlex,
    htake.append (by simp) ((mark_sound (by decide) hm).append htake')⟩

/-- What is read as a rule is a head, a neck and a body. -/
theorem rule_sound {fuel : Nat} {c c' : Cursor} {s : Statement} (h : (rule fuel).Gives c s c') :
    ∃ hd body, s = .rule hd body ∧ hd.term.Lexical ∧ body.IsBody ∧
      Takes c c' (hd.term.tokens ++ ":-".toList :: body.bodyTokens) ∧
      ∃ c₁, (head fuel).Gives c hd c₁ := by
  obtain ⟨hd, c₁, hh, h⟩ := gives_bind_iff.1 (gives_named_iff.1 h)
  obtain ⟨_, c₂, hm, h⟩ := gives_bind_iff.1 h
  obtain ⟨body, c₃, hb, h⟩ := gives_bind_iff.1 h
  obtain ⟨rfl, rfl⟩ := gives_pure_iff.1 h
  obtain ⟨hlex, htake⟩ := head_sound fuel c hd c₁ hh
  obtain ⟨hbody, htake'⟩ := (disjunction_sound fuel).skipping
    (fun _ => Formula.exists_token_body) hb
  exact ⟨hd, body, rfl, hlex, hbody,
    htake.append hd.term.tokens_ne_nil ((mark_sound (by decide) hm).append htake'), c₁, hh⟩

/-- What is read as a fact is a head. -/
theorem fact_sound {fuel : Nat} {c c' : Cursor} {s : Statement} (h : (fact fuel).Gives c s c') :
    ∃ hd, s = .fact hd ∧ hd.term.Lexical ∧ Takes c c' hd.term.tokens ∧
      (head fuel).Gives c hd c' := by
  obtain ⟨hd, c₁, hh, h⟩ := gives_bind_iff.1 (gives_named_iff.1 h)
  obtain ⟨rfl, rfl⟩ := gives_pure_iff.1 h
  obtain ⟨hlex, htake⟩ := head_sound fuel c hd c' hh
  exact ⟨hd, rfl, hlex, htake, hh⟩

end TimedInference.Syntax
