import TimedInference.Grounding.GroundProgram
import TimedInference.Proofs.Term.Integers

/-!
# The integers of a program

A function on integers is applied to a program by applying it to every term (`Program.mapInts`), and to a
ground program likewise (`GroundProgram.mapInts`).  Two runs that differ by such a function either both
fail, for the same kind of reason, or both succeed with results that correspond (`Alike`).
-/

namespace TimedInference

variable {α : Type} {m : Int → Int}

/-! ## Programs -/

/-- The literal with a function applied to its integers. -/
def Literal.mapInts (m : Int → Int) (l : Literal) : Literal := ⟨l.atom.mapInts m, l.positive⟩

/-- The rule with a function applied to its integers. -/
def Rule.mapInts (m : Int → Int) (r : Rule) : Rule :=
  ⟨r.head.mapInts m, r.body.map (Literal.mapInts m)⟩

namespace Clause

/-- The clause with a function applied to its integers. -/
def mapInts (m : Int → Int) : Clause α → Clause α
  | fact h => fact (h.mapInts m)
  | chance p h => chance p (h.mapInts m)
  | rule r => rule (r.mapInts m)

/-- The integers of a clause. -/
def integers : Clause α → List Int
  | fact h => h.integers
  | chance _ h => h.integers
  | rule r => r.head.integers ++ r.body.flatMap fun l => l.atom.integers

/-- A function that leaves the integers of a clause leaves the clause. -/
theorem mapInts_eq_self {c : Clause α} (h : ∀ n ∈ c.integers, m n = n) : c.mapInts m = c := by
  cases c with
  | fact a => rw [mapInts, Term.mapInts_eq_self h]
  | chance p a => rw [mapInts, Term.mapInts_eq_self h]
  | rule r =>
    have hb : r.body.map (Literal.mapInts m) = r.body.map id := by
      refine List.map_congr_left fun l hl => ?_
      rw [Literal.mapInts, Term.mapInts_eq_self fun n hn => h n ?_]
      · rfl
      · exact List.mem_append_right _ (List.mem_flatMap.2 ⟨l, hl, hn⟩)
    rw [mapInts, Rule.mapInts, hb, List.map_id,
      Term.mapInts_eq_self fun n hn => h n (List.mem_append_left _ hn)]

/-- Mapping the integers of a clause twice is mapping them once by the composition. -/
theorem mapInts_mapInts {u f : Int → Int} {c : Clause α} (h : ∀ n ∈ c.integers, u (m n) = f n) :
    (c.mapInts m).mapInts u = c.mapInts f := by
  cases c with
  | fact a => rw [mapInts, mapInts, mapInts, Term.mapInts_mapInts h]
  | chance p a => rw [mapInts, mapInts, mapInts, Term.mapInts_mapInts h]
  | rule r =>
    have hbody : (r.body.map (Literal.mapInts m)).map (Literal.mapInts u) =
        r.body.map (Literal.mapInts f) := by
      rw [List.map_map]
      refine List.map_congr_left fun l hl => ?_
      rw [Function.comp_apply, Literal.mapInts, Literal.mapInts, Literal.mapInts,
        Term.mapInts_mapInts fun n hn => h n ?_]
      exact List.mem_append_right _ (List.mem_flatMap.2 ⟨l, hl, hn⟩)
    simp only [mapInts, Rule.mapInts, hbody,
      Term.mapInts_mapInts fun n hn => h n (List.mem_append_left _ hn)]

end Clause

namespace Program

/-- The program with a function applied to its integers. -/
def mapInts (m : Int → Int) (p : Program α) : Program α :=
  ⟨p.clauses.map (Clause.mapInts m), p.queries.map (Term.mapInts m)⟩

/-- The integers of a program. -/
def integers (p : Program α) : List Int :=
  p.clauses.flatMap Clause.integers ++ p.queries.flatMap Term.integers

theorem mem_integers {p : Program α} {n : Int} :
    n ∈ p.integers ↔ (∃ c ∈ p.clauses, n ∈ c.integers) ∨ ∃ q ∈ p.queries, n ∈ q.integers := by
  simp only [integers, List.mem_append, List.mem_flatMap]

/-- Mapping the integers of a program twice is mapping them once by the composition. -/
theorem mapInts_mapInts {u f : Int → Int} {p : Program α} (h : ∀ n ∈ p.integers, u (m n) = f n) :
    (p.mapInts m).mapInts u = p.mapInts f := by
  simp only [mem_integers] at h
  simp only [mapInts, List.map_map, mk.injEq]
  constructor
  · exact List.map_congr_left fun c hc => Clause.mapInts_mapInts fun n hn => h n (.inl ⟨c, hc, hn⟩)
  · exact List.map_congr_left fun q hq => Term.mapInts_mapInts fun n hn => h n (.inr ⟨q, hq, hn⟩)

/-- The facts are mapped one by one, and so are the other parts of a program and of its rules. -/
@[simp] theorem factHeads_mapInts (p : Program α) :
    (p.mapInts m).factHeads = p.factHeads.map (Term.mapInts m) := by
  simp only [factHeads, mapInts, List.filterMap_map, List.map_filterMap]
  refine List.filterMap_congr fun c _ => ?_
  cases c <;> rfl

@[simp] theorem certainFacts_mapInts (p : Program α) :
    (p.mapInts m).certainFacts = p.certainFacts.map (Term.mapInts m) := by
  simp only [certainFacts, mapInts, List.filterMap_map, List.map_filterMap]
  refine List.filterMap_congr fun c _ => ?_
  cases c <;> rfl

/-- Probabilities stay when integers are mapped. -/
@[simp] theorem chances_mapInts (p : Program α) :
    (p.mapInts m).chances = p.chances.map fun c => (c.1.mapInts m, c.2) := by
  simp only [chances, mapInts, List.filterMap_map, List.map_filterMap]
  refine List.filterMap_congr fun c _ => ?_
  cases c <;> rfl

@[simp] theorem rules_mapInts (p : Program α) :
    (p.mapInts m).rules = p.rules.map (Rule.mapInts m) := by
  simp only [rules, mapInts, List.filterMap_map, List.map_filterMap]
  refine List.filterMap_congr fun c _ => ?_
  cases c <;> rfl

end Program

namespace Rule

@[simp] theorem positives_mapInts (r : Rule) :
    (r.mapInts m).positives = r.positives.map (Term.mapInts m) := by
  simp only [positives, mapInts, List.filter_map, List.map_map]
  rfl

@[simp] theorem negatives_mapInts (r : Rule) :
    (r.mapInts m).negatives = r.negatives.map (Term.mapInts m) := by
  simp only [negatives, mapInts, List.filter_map, List.map_map]
  rfl

/-- A rule is safe or unsafe after mapping integers as before. -/
@[simp] theorem unbound?_mapInts (r : Rule) : (r.mapInts m).unbound? = r.unbound? := by
  have hterms (ts : List Term) :
      (ts.map (Term.mapInts m)).flatMap Term.variables = ts.flatMap Term.variables := by
    rw [List.flatMap_map]
    exact List.flatMap_congr fun t _ => Term.variables_mapInts t
  have hneeded : (r.mapInts m).needed = r.needed := by
    unfold needed
    rw [negatives_mapInts, hterms]
    exact congrArg (· ++ _) (Term.variables_mapInts r.head)
  have hbound : (r.mapInts m).bound = r.bound := by
    unfold bound
    rw [positives_mapInts, hterms]
  unfold unbound?
  rw [hneeded, hbound]

end Rule

/-! ## Ground programs -/

/-- The choice with a function applied to its integers. -/
def Choice.mapInts (m : Int → Int) (c : Choice α) : Choice α := ⟨c.atom.mapInts m, c.probability⟩

/-- The definition with a function applied to the integers of its atom. -/
def AtomDefinition.mapInts (m : Int → Int) (d : AtomDefinition) : AtomDefinition :=
  { d with atom := d.atom.mapInts m }

/-- The ground program with a function applied to its integers. -/
def GroundProgram.mapInts (m : Int → Int) (g : GroundProgram α) : GroundProgram α where
  choices := g.choices.map (Choice.mapInts m)
  atoms := g.atoms.map (AtomDefinition.mapInts m)
  queries := g.queries.map fun q => (q.1.mapInts m, q.2)

namespace GroundProgram

/-- The integers of a ground program. -/
def integers (g : GroundProgram α) : List Int :=
  g.choices.flatMap (·.atom.integers) ++ g.atoms.flatMap (·.atom.integers) ++
    g.queries.flatMap (·.1.integers)

theorem mem_integers {g : GroundProgram α} {n : Int} :
    n ∈ g.integers ↔ (∃ c ∈ g.choices, n ∈ c.atom.integers) ∨ (∃ d ∈ g.atoms, n ∈ d.atom.integers) ∨
      ∃ q ∈ g.queries, n ∈ q.1.integers := by
  simp only [integers, List.mem_append, List.mem_flatMap, or_assoc]

/-- Mapping the integers of a ground program twice is mapping them once by the composition. -/
theorem mapInts_mapInts {u f : Int → Int} {g : GroundProgram α}
    (h : ∀ n ∈ g.integers, u (m n) = f n) : (g.mapInts m).mapInts u = g.mapInts f := by
  simp only [mem_integers] at h
  simp only [mapInts, List.map_map, mk.injEq]
  refine ⟨List.map_congr_left fun c hc => ?_, List.map_congr_left fun d hd => ?_,
    List.map_congr_left fun q hq => ?_⟩
  · simp only [Function.comp_apply, Choice.mapInts,
      Term.mapInts_mapInts fun n hn => h n (.inl ⟨c, hc, hn⟩)]
  · simp only [Function.comp_apply, AtomDefinition.mapInts,
      Term.mapInts_mapInts fun n hn => h n (.inr (.inl ⟨d, hd, hn⟩))]
  · simp only [Function.comp_apply, Term.mapInts_mapInts fun n hn => h n (.inr (.inr ⟨q, hq, hn⟩))]

/-- A strictly increasing function keeps ground programs apart. -/
theorem mapInts_injective (hm : Increasing m) :
    Function.Injective (mapInts (α := α) m) := by
  have hterm : Function.Injective (Term.mapInts m) := fun _ _ => (Term.mapInts_inj hm).1
  rintro ⟨choices, atoms, queries⟩ ⟨choices', atoms', queries'⟩ h
  obtain ⟨hchoices, hatoms, hqueries⟩ := mk.inj h
  rw [mk.injEq]
  refine ⟨List.map_injective_iff.2 ?_ hchoices, List.map_injective_iff.2 ?_ hatoms,
    List.map_injective_iff.2 ?_ hqueries⟩
  · rintro ⟨a, p⟩ ⟨b, q⟩ hab
    obtain ⟨ha, rfl⟩ := Choice.mk.inj hab
    obtain rfl : a = b := hterm ha
    rfl
  · rintro ⟨a, certain, choices, bodies⟩ ⟨b, certain', choices', bodies'⟩ hab
    obtain ⟨ha, rfl, rfl, rfl⟩ := AtomDefinition.mk.inj hab
    obtain rfl : a = b := hterm ha
    rfl
  · rintro ⟨a, i⟩ ⟨b, j⟩ hab
    obtain ⟨ha, rfl⟩ := Prod.mk.inj hab
    obtain rfl : a = b := hterm ha
    rfl

end GroundProgram

/-! ## Outcomes -/

/-- Errors for the same kind of reason. -/
def EngineError.SameKind (e f : EngineError) : Prop := e.ctorIdx = f.ctorIdx

/-- Two outcomes that are failures of the same kind, or values that correspond. -/
inductive Alike {β γ : Type} (R : β → γ → Prop) : Except EngineError β → Except EngineError γ → Prop
  | ok {b : β} {c : γ} (h : R b c) : Alike R (.ok b) (.ok c)
  | error {e f : EngineError} (h : e.SameKind f) : Alike R (.error e) (.error f)

namespace Alike

variable {β γ δ ε : Type} {R : β → γ → Prop} {S : δ → ε → Prop}

/-- Sequences of computations that are alike are alike, when they go on alike from related values. -/
theorem bind {x : Except EngineError β} {y : Except EngineError γ} {f : β → Except EngineError δ}
    {g : γ → Except EngineError ε} (h : Alike R x y) (hfg : ∀ b c, R b c → Alike S (f b) (g c)) :
    Alike S (x >>= f) (y >>= g) := by
  cases h with
  | ok h => exact hfg _ _ h
  | error h => exact .error h

/-- Two outcomes that correspond to the same third one correspond to each other. -/
theorem meet {T : β → δ → Prop} {x : Except EngineError β} {y : Except EngineError δ}
    {z : Except EngineError γ} {S : δ → γ → Prop} (h : Alike R x z) (h' : Alike S y z)
    (hT : ∀ b c d, x = .ok b → R b c → S d c → T b d) : Alike T x y := by
  cases h with
  | ok h =>
    cases h' with
    | ok h' => exact .ok (hT _ _ _ rfl h h')
  | error h =>
    cases h' with
    | error h' => exact .error (Eq.trans h (Eq.symm h'))

/-- What corresponds to a success is a success. -/
theorem exists_ok {b : β} {y : Except EngineError γ} (h : Alike R (.ok b) y) :
    ∃ c, y = .ok c ∧ R b c := by
  cases h with
  | ok h => exact ⟨_, rfl, h⟩

/-- Steps that correspond, taken along lists that correspond, lead to outcomes that do. -/
theorem foldlM {f : β → δ → Except EngineError β} {g : γ → ε → Except EngineError γ} {m : δ → ε}
    {ds : List δ} (hfg : ∀ d ∈ ds, ∀ b c, R b c → Alike R (f b d) (g c (m d))) {b : β} {c : γ}
    (h : R b c) : Alike R (ds.foldlM f b) ((ds.map m).foldlM g c) := by
  induction ds generalizing b c with
  | nil => exact .ok h
  | cons d ds ih =>
    rw [List.forall_mem_cons] at hfg
    rw [List.map_cons, List.foldlM_cons, List.foldlM_cons]
    exact (hfg.1 b c h).bind fun _ _ h' => ih hfg.2 h'

end Alike

/-! ## The check -/

/-- The check of a fact is whether it is ground. -/
theorem Clause.check_of_factHead? [Probability α] {c : Clause α} {h : Term}
    (hc : c.factHead? = some h) :
    c.check = if h.isGround = true then .ok () else .error (.factNotGround c.text) := by
  cases c with
  | rule r => simp [factHead?] at hc
  | _ =>
    obtain rfl := Option.some.inj hc
    rfl

/-- Whether a clause is safe does not depend on its integers. -/
theorem Clause.check_mapInts [Probability α] (c : Clause α) :
    Alike (fun _ _ => True) c.check (c.mapInts m).check := by
  -- facts of both kinds are checked alike
  cases hc : c.factHead? with
  | some h =>
    have hm : (c.mapInts m).factHead? = some (h.mapInts m) := by
      cases c with
      | rule r => simp [factHead?] at hc
      | _ =>
        obtain rfl := Option.some.inj hc
        rfl
    rw [check_of_factHead? hc, check_of_factHead? hm, Term.isGround_mapInts]
    split
    · exact .ok trivial
    · exact .error rfl
  | none =>
    cases c with
    | rule r =>
      simp only [check, mapInts, Rule.unbound?_mapInts]
      cases r.unbound? with
      | none => exact .ok trivial
      | some x => exact .error rfl
    | _ => simp [factHead?] at hc

/-- Whether a program is safe does not depend on its integers. -/
theorem Program.check_mapInts [Probability α] (p : Program α) :
    Alike (fun _ _ => True) p.check (p.mapInts m).check := by
  show Alike _ (p.clauses.forM _) ((p.clauses.map _).forM _)
  induction p.clauses with
  | nil => exact .ok trivial
  | cons c cs ih => exact c.check_mapInts.bind fun _ _ _ => ih

end TimedInference
