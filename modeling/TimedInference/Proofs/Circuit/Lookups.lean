import TimedInference.Circuit.Diagrams
import TimedInference.Circuit.Worlds

/-!
# Lookups that cannot fail

What is computed for an atom is looked up in what was computed for the atoms before it.  When every number
in a ground program is that of an earlier atom (`GroundProgram.Ordered`), no lookup fails: a computation
that gives up at a failed lookup gives what the total one gives, be it truth values
(`GroundProgram.queryTruths?_eq`) or diagrams (`DiagramCircuit.compile?_eq`).
-/

namespace TimedInference

open Diagram

variable {α β γ : Type}

/-- The atoms refer to atoms before them, and the queries to atoms that are there. -/
structure GroundProgram.Ordered (g : GroundProgram α) : Prop where
  lt_of_mem_bodies : ∀ (i : Nat) (d : AtomDefinition), g.atoms[i]? = some d →
    ∀ body ∈ d.bodies, ∀ l ∈ body, l.atom < i
  lt_of_mem_queries : ∀ q ∈ g.queries, ∀ i : Nat, q.2 = some i → i < g.atoms.length

theorem mapM_eq_some_map {f : β → Option γ} {f' : β → γ} {bs : List β}
    (h : ∀ b ∈ bs, f b = some (f' b)) : bs.mapM f = some (bs.map f') := by
  induction bs with
  | nil => rfl
  | cons b bs ih =>
    rw [List.forall_mem_cons] at h
    rw [List.mapM_cons, h.1, ih h.2]
    rfl

/-- What has been computed for an atom. -/
theorem getElem?_eq_some_getD {known : Array β} {i : Nat} (h : i < known.size) (b : β) :
    known[i]? = some (known.getD i b) := by
  rw [Array.getD_eq_getD_getElem?, Array.getElem?_eq_getElem h, Option.getD_some]

/-! ## Truth values -/

/-- Whether an atom holds in a world, if the atoms of its bodies are found among the earlier ones. -/
def AtomDefinition.holds? (d : AtomDefinition) (world : Nat) (known : Array Bool) : Option Bool := do
  let bodies ← d.bodies.mapM fun body => body.mapM fun l => known[l.atom]?.map (· == l.positive)
  return d.certain || d.choices.any world.testBit || bodies.any (·.all id)

/-- When literals refer to atoms that are known, no lookup fails in deciding whether an atom holds. -/
theorem AtomDefinition.holds?_eq {d : AtomDefinition} {known : Array Bool}
    (h : ∀ body ∈ d.bodies, ∀ l ∈ body, l.atom < known.size) (world : Nat) :
    d.holds? world known = some (d.holds world known) := by
  have hbodies : d.bodies.mapM
      (fun body => body.mapM fun l => known[l.atom]?.map (· == l.positive)) =
        some (d.bodies.map fun body =>
          body.map fun l => known.getD l.atom false == l.positive) := by
    refine mapM_eq_some_map fun body hbody => mapM_eq_some_map fun l hl => ?_
    rw [getElem?_eq_some_getD (h body hbody l hl) false, Option.map_some]
  rw [holds?, hbodies]
  show some _ = some (d.holds world known)
  simp only [holds, List.any_map, List.all_map, Function.comp_def, id]

namespace GroundProgram

/-- Whether each query holds in a world, if no lookup of an atom fails. -/
def queryTruths? (g : GroundProgram α) (world : Nat) : Option (List Bool) := do
  let known ← g.atoms.foldlM (fun known d => do return known.push (← d.holds? world known)) #[]
  g.queries.mapM fun q => q.2.elim (some false) fun i => known[i]?

/-- When atoms refer to earlier ones only, no lookup fails in a run over them. -/
theorem foldlM_holds?_eq (world : Nat) {atoms : List AtomDefinition} {known : Array Bool}
    (h : ∀ (i : Nat) (d : AtomDefinition), atoms[i]? = some d →
      ∀ body ∈ d.bodies, ∀ l ∈ body, l.atom < known.size + i) :
    atoms.foldlM (fun known d => do return known.push (← d.holds? world known)) known =
      some (atoms.foldl (fun known d => known.push (d.holds world known)) known) := by
  induction atoms generalizing known with
  | nil => rfl
  | cons d atoms ih =>
    rw [List.foldlM_cons, AtomDefinition.holds?_eq (h 0 d rfl)]
    refine ih fun i c hc body hbody l hl => ?_
    have hlt := h (i + 1) c hc body hbody l hl
    rw [Array.size_push]
    omega

/-- Every atom has a truth value. -/
theorem size_truthValues (g : GroundProgram α) (world : Nat) :
    (g.truthValues world).size = g.atoms.length := by
  have hsize (atoms : List AtomDefinition) (known : Array Bool) :
      (atoms.foldl (fun known d => known.push (d.holds world known)) known).size =
        known.size + atoms.length := by
    induction atoms generalizing known with
    | nil => rfl
    | cons d atoms ih =>
      rw [List.foldl_cons, ih, Array.size_push, List.length_cons]
      omega
  exact (hsize g.atoms #[]).trans (Nat.zero_add _)

/-- Every atom is found that the truth values of atoms and queries in a world are computed from. -/
theorem queryTruths?_eq {g : GroundProgram α} (h : g.Ordered) (world : Nat) :
    g.queryTruths? world =
      some (g.queries.map fun q => q.2.any ((g.truthValues world).getD · false)) := by
  have hknown : g.atoms.foldlM (fun known d => do return known.push (← d.holds? world known)) #[] =
      some (g.truthValues world) :=
    foldlM_holds?_eq world fun i d hd body hbody l hl => by
      simpa using h.lt_of_mem_bodies i d hd body hbody l hl
  rw [queryTruths?, hknown]
  refine mapM_eq_some_map fun q hq => ?_
  cases hi : q.2 with
  | none => rfl
  | some i =>
    -- the number of a query is that of an atom, and every atom has a truth value
    have hlt := h.lt_of_mem_queries q hq i hi
    rw [← g.size_truthValues world] at hlt
    exact getElem?_eq_some_getD hlt false

/-! ## Diagrams -/

/-- The diagram of a literal, if its atom is found among the earlier ones. -/
def literalDiagram? (known : Array Nat) (l : GroundLiteral) : OptionT (StateM Store) Nat := do
  let f ← OptionT.mk (pure known[l.atom]?)
  if l.positive then pure f else liftM (Store.negate f)

/-- The diagram of a body, if no lookup of an atom fails. -/
def bodyDiagram? (known : Array Nat) (body : List GroundLiteral) : OptionT (StateM Store) Nat :=
  body.foldlM (fun f l => do liftM (Store.conjoin f (← literalDiagram? known l))) trueRef

/-- The diagram of an atom, if no lookup of an atom fails. -/
def atomDiagram? (known : Array Nat) (d : AtomDefinition) : OptionT (StateM Store) Nat := do
  let start := if d.certain then trueRef else falseRef
  let chosen ← liftM <|
    d.choices.foldlM (fun f choice => do Store.disjoin f (← Store.ofVar choice)) start
  d.bodies.foldlM (fun f body => do liftM (Store.disjoin f (← bodyDiagram? known body))) chosen

/-- The diagrams of all atoms, if no lookup of an atom fails. -/
def atomDiagrams? (g : GroundProgram α) : OptionT (StateM Store) (Array Nat) :=
  g.atoms.foldlM (fun known d => do return known.push (← atomDiagram? known d)) #[]

/-- Steps that cannot fail, one after the other, cannot fail. -/
theorem foldlM_eq_liftM {step? : β → γ → OptionT (StateM Store) β} {step : β → γ → StateM Store β}
    {cs : List γ} (h : ∀ c ∈ cs, ∀ b, step? b c = liftM (step b c)) (b : β) :
    cs.foldlM step? b = liftM (cs.foldlM step b) := by
  induction cs generalizing b with
  | nil => rfl
  | cons c cs ih =>
    rw [List.forall_mem_cons] at h
    rw [List.foldlM_cons, List.foldlM_cons, liftM_bind, h.1]
    exact bind_congr fun b' => ih h.2 b'

/-- When literals refer to known atoms, no lookup fails in making their diagrams, and so for bodies and
atoms. -/
theorem literalDiagram?_eq {known : Array Nat} {l : GroundLiteral} (h : l.atom < known.size) :
    literalDiagram? known l = liftM (literalDiagram known l) := by
  rw [literalDiagram?, literalDiagram, getElem?_eq_some_getD h falseRef]
  cases l.positive <;> rfl

theorem bodyDiagram?_eq {known : Array Nat} {body : List GroundLiteral}
    (h : ∀ l ∈ body, l.atom < known.size) :
    bodyDiagram? known body = liftM (bodyDiagram known body) :=
  foldlM_eq_liftM (fun l hl f => by rw [literalDiagram?_eq (h l hl), liftM_bind]) trueRef

theorem atomDiagram?_eq {known : Array Nat} {d : AtomDefinition}
    (h : ∀ body ∈ d.bodies, ∀ l ∈ body, l.atom < known.size) :
    atomDiagram? known d = liftM (atomDiagram known d) := by
  rw [atomDiagram?, atomDiagram, liftM_bind]
  refine bind_congr fun chosen => foldlM_eq_liftM (fun body hbody f => ?_) chosen
  rw [bodyDiagram?_eq (h body hbody), liftM_bind]

/-- When atoms refer to earlier ones only, no lookup fails in making their diagrams. -/
theorem foldlM_atomDiagram?_eq {atoms : List AtomDefinition} {known : Array Nat}
    (h : ∀ (i : Nat) (d : AtomDefinition), atoms[i]? = some d →
      ∀ body ∈ d.bodies, ∀ l ∈ body, l.atom < known.size + i) :
    atoms.foldlM (fun known d => do return known.push (← atomDiagram? known d)) known =
      (liftM (m := StateM Store) <|
        atoms.foldlM (fun known d => do return known.push (← atomDiagram known d)) known) := by
  induction atoms generalizing known with
  | nil => rfl
  | cons d atoms ih =>
    rw [List.foldlM_cons, List.foldlM_cons, atomDiagram?_eq (h 0 d rfl), liftM_bind, liftM_bind,
      bind_assoc, bind_assoc]
    refine bind_congr fun f => ?_
    rw [liftM_pure, pure_bind, pure_bind]
    -- one more atom is known, and the others stand one place nearer
    refine ih fun i c hc body hbody l hl => ?_
    have hlt := h (i + 1) c hc body hbody l hl
    rw [Array.size_push]
    omega

/-- Every atom has a diagram. -/
theorem size_atomDiagrams (g : GroundProgram α) (s : Store) :
    (g.atomDiagrams.run s).1.size = g.atoms.length := by
  have hsize (atoms : List AtomDefinition) (known : Array Nat) (s : Store) :
      ((atoms.foldlM (fun known d => do return known.push (← atomDiagram known d)) known :
        StateM Store (Array Nat)).run s).1.size = known.size + atoms.length := by
    induction atoms generalizing known s with
    | nil => rfl
    | cons d atoms ih =>
      rw [List.foldlM_cons]
      refine (ih (known.push ((atomDiagram known d).run s).1) ((atomDiagram known d).run s).2).trans ?_
      rw [Array.size_push, List.length_cons]
      omega
  exact (hsize g.atoms #[] s).trans (Nat.zero_add _)

end GroundProgram

namespace DiagramCircuit

/-- Compiles a ground program, if no lookup of an atom fails. -/
def compile? (g : GroundProgram α) : Option (DiagramCircuit α) := do
  let out := g.atomDiagrams?.run.run Store.empty
  let known ← out.1
  let queries ← g.queries.mapM fun q =>
    (q.2.elim (some falseRef) fun i => known[i]?).map fun f => (q.1, f)
  return { store := out.2, queries, named := g.named, baseline := ⟨g.baseline.toArray⟩ }

/-- Every diagram is found that a ground program is compiled from. -/
theorem compile?_eq {g : GroundProgram α} (h : g.Ordered) : compile? g = some (compile g) := by
  have hknown : g.atomDiagrams? = liftM g.atomDiagrams :=
    GroundProgram.foldlM_atomDiagram?_eq fun i d hd body hbody l hl => by
      simpa using h.lt_of_mem_bodies i d hd body hbody l hl
  -- the diagrams that the lookups find are those of the compiler, in the same store
  have hrun : g.atomDiagrams?.run.run Store.empty =
      (some (g.atomDiagrams.run Store.empty).1, (g.atomDiagrams.run Store.empty).2) :=
    congrArg (fun m : OptionT (StateM Store) (Array Nat) => m.run.run Store.empty) hknown
  have hqueries : g.queries.mapM (fun q =>
      (q.2.elim (some falseRef) fun i => (g.atomDiagrams.run Store.empty).1[i]?).map
        fun f => (q.1, f)) = some (compile g).queries := by
    refine mapM_eq_some_map fun q hq => ?_
    cases hi : q.2 with
    | none => rfl
    | some i =>
      have hlt := h.lt_of_mem_queries q hq i hi
      rw [← g.size_atomDiagrams Store.empty] at hlt
      rw [Option.elim_some, getElem?_eq_some_getD hlt falseRef, Option.map_some, Option.elim_some]
      rfl
  simp only [compile?, hrun, Option.bind_eq_bind, Option.bind_some, hqueries]
  rfl

end DiagramCircuit

end TimedInference
