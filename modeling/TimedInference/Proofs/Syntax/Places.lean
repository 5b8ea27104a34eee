import TimedInference.Proofs.Log.Success
import TimedInference.Syntax.Resolve

/-!
# Places do not matter

A written program keeps the places at which a later check can fail.  Without its places it stands for the
same program: what a statement resolves to, if it does, depends on the statement without places only
(`Statement.value?_unplaced`).  So do the results of resolving a list of statements, one after the other.

What resolving makes of a construct, apart from the faults it finds, is an equation for each construct.
Terms and formulas resolve their lists in the same way (`ResolvesAll`).
-/

namespace TimedInference.Syntax

variable {α β : Type}

/-! ## Without places -/

namespace WrittenTerm

mutual

/-- The term with every place set to the beginning of the text. -/
def unplaced : WrittenTerm → WrittenTerm
  | var x => var x
  | integer _ negative digits => integer 0 negative digits
  | compound f ts => compound f (unplacedAll ts)

/-- The terms with every place set to the beginning of the text. -/
def unplacedAll : List WrittenTerm → List WrittenTerm
  | [] => []
  | t :: ts => t.unplaced :: unplacedAll ts

end

theorem unplacedAll_eq_map (ts : List WrittenTerm) : unplacedAll ts = ts.map unplaced := by
  induction ts with
  | nil => rfl
  | cons t ts ih => rw [unplacedAll, ih, List.map_cons]

end WrittenTerm

namespace Formula

mutual

/-- The formula with every place set to the beginning of the text. -/
def unplaced : Formula WrittenTerm → Formula WrittenTerm
  | holds t => holds t.unplaced
  | fails t => fails t.unplaced
  | every fs => every (unplacedAll fs)
  | some fs => some (unplacedAll fs)

/-- The formulas with every place set to the beginning of the text. -/
def unplacedAll : List (Formula WrittenTerm) → List (Formula WrittenTerm)
  | [] => []
  | f :: fs => f.unplaced :: unplacedAll fs

end

theorem unplacedAll_eq_map (fs : List (Formula WrittenTerm)) : unplacedAll fs = fs.map unplaced := by
  induction fs with
  | nil => rfl
  | cons f fs ih => rw [unplacedAll, ih, List.map_cons]

end Formula

/-- The head with every place set to the beginning of the text. -/
def WrittenHead.unplaced (h : WrittenHead) : WrittenHead := ⟨0, h.term.unplaced⟩

/-- The statement with every place set to the beginning of the text. -/
def Statement.unplaced : Statement → Statement
  | query t => query t.unplaced
  | chance p h => chance p h.unplaced
  | rule h body => rule h.unplaced body.unplaced
  | fact h => fact h.unplaced

/-! ## Resolving without places -/

namespace Resolving

/-- The value of a check, if it finds no fault, and the count of anonymous variables after it. -/
def value? (x : Resolving α) (count : Nat) : Option (α × Nat) := (x.run count).toOption

@[simp] theorem value?_pure (a : α) (count : Nat) : value? (pure a) count = some (a, count) := rfl

/-- A sequence of resolutions passes the count of underscores on, and a failure of either part is one of
the sequence. -/
@[simp] theorem value?_bind (x : Resolving α) (f : α → Resolving β) (count : Nat) :
    value? (x >>= f) count = (value? x count).bind fun r => value? (f r.1) r.2 := by
  show ((StateT.bind x f) count).toOption = _
  unfold StateT.bind value? StateT.run
  show (x count >>= fun r => f r.1 r.2).toOption = _
  cases x count with
  | error e => rfl
  | ok r => rfl

/-- What is made of a value that is resolved. -/
theorem value?_bind_pure (x : Resolving α) (f : α → β) (count : Nat) :
    value? (x >>= fun a => pure (f a)) count = (value? x count).map fun r => (f r.1, r.2) := by
  rw [value?_bind]
  cases value? x count <;> rfl

/-- What does not number underscores leaves their count. -/
@[simp] theorem value?_lift (x : Except Fault α) (count : Nat) :
    value? (liftM x : Resolving α) count = x.toOption.map fun a => (a, count) := by
  cases x with
  | error e => rfl
  | ok a => rfl

end Resolving

open Resolving

/-! ## Lists -/

section Lists

variable {τ : Type} {resolve : τ → Resolving β} {all : List τ → Resolving (List β)}

/-- A list is resolved by resolving its members, from left to right. -/
structure ResolvesAll (resolve : τ → Resolving β) (all : List τ → Resolving (List β)) : Prop where
  nil : all [] = pure []
  cons : ∀ a as, all (a :: as) = do return (← resolve a) :: (← all as)

theorem WrittenTerm.resolvesAll : ResolvesAll WrittenTerm.resolve WrittenTerm.resolveAll :=
  ⟨rfl, fun _ _ => rfl⟩

theorem Formula.resolvesAll : ResolvesAll Formula.resolve Formula.resolveAll :=
  ⟨rfl, fun _ _ => rfl⟩

namespace ResolvesAll

theorem value?_nil (h : ResolvesAll resolve all) (count : Nat) :
    value? (all []) count = some ([], count) := by
  rw [h.nil, value?_pure]

/-- The members of a list are resolved from the first to the last. -/
theorem value?_cons (h : ResolvesAll resolve all) (a : τ) (as : List τ) (count : Nat) :
    value? (all (a :: as)) count =
      (value? (resolve a) count).bind fun r =>
        (value? (all as) r.2).map fun r' => (r.1 :: r'.1, r'.2) := by
  rw [h.cons, value?_bind]
  simp only [value?_bind_pure]

/-- A list is resolved when its first member is and then the others are. -/
theorem value?_cons_eq_some_iff (h : ResolvesAll resolve all) {a : τ} {as : List τ} {count : Nat}
    {r : List β × Nat} :
    value? (all (a :: as)) count = some r ↔
      ∃ first, value? (resolve a) count = some first ∧
        ∃ rest, value? (all as) first.2 = some rest ∧ (first.1 :: rest.1, rest.2) = r := by
  simp only [h.value?_cons, Option.bind_eq_some_iff, Option.map_eq_some_iff]

/-- Two lists are resolved alike if their members are. -/
theorem value?_map (h : ResolvesAll resolve all) {f : τ → τ} {as : List τ}
    (hf : ∀ a ∈ as, ∀ count, value? (resolve (f a)) count = value? (resolve a) count)
    (count : Nat) : value? (all (as.map f)) count = value? (all as) count := by
  induction as generalizing count with
  | nil => rfl
  | cons a as ih =>
    rw [List.forall_mem_cons] at hf
    simp only [List.map_cons, h.value?_cons, hf.1, ih hf.2]

/-- Members that stand for the members of a list are resolved to this list. -/
theorem value?_map_eq_some (h : ResolvesAll resolve all) {f : β → τ} {bs : List β}
    (hf : ∀ b ∈ bs, ∀ count, value? (resolve (f b)) count = some (b, count)) (count : Nat) :
    value? (all (bs.map f)) count = some (bs, count) := by
  induction bs with
  | nil => exact h.value?_nil count
  | cons b bs ih =>
    rw [List.forall_mem_cons] at hf
    rw [List.map_cons, h.value?_cons_eq_some_iff]
    exact ⟨_, hf.1 count, _, ih hf.2, rfl⟩

/-- What holds of everything that the members of a list are resolved to holds of the members of what
the list is resolved to. -/
theorem forall_mem (h : ResolvesAll resolve all) {P : β → Prop} {as : List τ}
    (hP : ∀ a ∈ as, ∀ count r, value? (resolve a) count = some r → P r.1) {count : Nat}
    {r : List β × Nat} (hr : value? (all as) count = some r) : ∀ b ∈ r.1, P b := by
  induction as generalizing count r with
  | nil =>
    obtain rfl : ([], count) = r := Option.some.inj ((h.value?_nil count).symm.trans hr)
    simp
  | cons a as ih =>
    rw [List.forall_mem_cons] at hP
    obtain ⟨first, hfirst, rest, hrest, rfl⟩ := h.value?_cons_eq_some_iff.1 hr
    rw [List.forall_mem_cons]
    exact ⟨hP.1 _ _ hfirst, ih hP.2 hrest⟩

/-- A list resolves from every count if its members do, and to members related to those from another
count. -/
theorem exists_forall₂ (h : ResolvesAll resolve all) {R : β → β → Prop} {as : List τ}
    (hR : ∀ a ∈ as, ∀ count count' r, value? (resolve a) count = some r →
      ∃ r', value? (resolve a) count' = some r' ∧ R r.1 r'.1)
    {count : Nat} (count' : Nat) {r : List β × Nat} (hr : value? (all as) count = some r) :
    ∃ r', value? (all as) count' = some r' ∧ List.Forall₂ R r.1 r'.1 := by
  induction as generalizing count count' r with
  | nil =>
    obtain rfl : ([], count) = r := Option.some.inj ((h.value?_nil count).symm.trans hr)
    exact ⟨([], count'), h.value?_nil count', .nil⟩
  | cons a as ih =>
    rw [List.forall_mem_cons] at hR
    obtain ⟨first, hfirst, rest, hrest, rfl⟩ := h.value?_cons_eq_some_iff.1 hr
    obtain ⟨first', hfirst', hR₁⟩ := hR.1 count count' first hfirst
    obtain ⟨rest', hrest', hR₂⟩ := ih hR.2 first'.2 hrest
    -- the counts after the first member may differ as well
    exact ⟨_, h.value?_cons_eq_some_iff.2 ⟨first', hfirst', rest', hrest', rfl⟩, .cons hR₁ hR₂⟩

end ResolvesAll

end Lists

/-! ## What resolving makes of each construct -/

namespace WrittenTerm

/-- Only an underscore gets a number; every other variable keeps its name. -/
theorem value?_resolve_var (x : String) (count : Nat) :
    value? (var x).resolve count =
      some (if x = "_" then (.var ("_G" ++ toString (count + 1)), count + 1) else (.var x, count)) := by
  unfold resolve
  split <;> rfl

/-- An integer is resolved when it fits in 64 bits, and numbers nothing. -/
theorem value?_resolve_integer (o : Nat) (negative : Bool) (ds : List Char) (count : Nat) :
    value? (integer o negative ds).resolve count =
      (resolveInteger o negative ds).toOption.map fun n => (.int n, count) := by
  rw [resolve, value?_bind, value?_lift]
  cases resolveInteger o negative ds <;> rfl

/-- A compound is resolved through its arguments. -/
theorem value?_resolve_compound (f : String) (ts : List WrittenTerm) (count : Nat) :
    value? (compound f ts).resolve count =
      (value? (resolveAll ts) count).map fun r => (.compound f r.1, r.2) :=
  value?_bind_pure (resolveAll ts) (Term.compound f) count

end WrittenTerm

namespace Formula

theorem value?_resolve_holds (t : WrittenTerm) (count : Nat) :
    value? (holds t).resolve count = (value? t.resolve count).map fun r => (.holds r.1, r.2) :=
  value?_bind_pure t.resolve holds count

theorem value?_resolve_fails (t : WrittenTerm) (count : Nat) :
    value? (fails t).resolve count = (value? t.resolve count).map fun r => (.fails r.1, r.2) :=
  value?_bind_pure t.resolve fails count

/-- Conjunctions and disjunctions are resolved through their parts. -/
theorem value?_resolve_every (fs : List (Formula WrittenTerm)) (count : Nat) :
    value? (every fs).resolve count =
      (value? (resolveAll fs) count).map fun r => (.every r.1, r.2) :=
  value?_bind_pure (resolveAll fs) every count

theorem value?_resolve_some (fs : List (Formula WrittenTerm)) (count : Nat) :
    value? (some fs).resolve count =
      (value? (resolveAll fs) count).map fun r => (.some r.1, r.2) :=
  value?_bind_pure (resolveAll fs) some count

end Formula

/-- A head is a term that has a functor. -/
theorem WrittenHead.value?_resolve (h : WrittenHead) (count : Nat) :
    value? h.resolve count =
      (value? h.term.resolve count).filter fun r => r.1.functor?.isSome := by
  unfold resolve
  rw [value?_bind]
  cases value? h.term.resolve count with
  | none => rfl
  | some r =>
    rw [Option.bind_some, Option.filter_some]
    cases hf : r.1.functor? with
    | none =>
      simp only [Option.isNone_none, if_true]
      rfl
    | some f =>
      simp only [Option.isNone_some]
      rfl

namespace Statement

variable [Probability α]

/-- A query becomes a query of the program, and each other statement clauses. -/
theorem value?_resolve_query (t : WrittenTerm) (count : Nat) :
    value? ((query t).resolve : Resolving (Program α)) count =
      (value? t.resolve count).map fun r => (⟨[], [r.1]⟩, r.2) :=
  value?_bind_pure t.resolve (fun q => (⟨[], [q]⟩ : Program α)) count

theorem value?_resolve_fact (h : WrittenHead) (count : Nat) :
    value? ((fact h).resolve : Resolving (Program α)) count =
      (value? h.resolve count).map fun r => (⟨[.fact r.1], []⟩, r.2) :=
  value?_bind_pure h.resolve (fun head => (⟨[.fact head], []⟩ : Program α)) count

/-- A rule becomes one clause for every alternative of its body, all with one head. -/
theorem value?_resolve_rule (h : WrittenHead) (body : Formula WrittenTerm) (count : Nat) :
    value? ((rule h body).resolve : Resolving (Program α)) count =
      (value? h.resolve count).bind fun r => (value? body.resolve r.2).map fun f =>
        (⟨f.1.alternatives.map fun literals => .rule ⟨r.1, literals⟩, []⟩, f.2) := by
  rw [resolve, value?_bind]
  simp only [value?_bind_pure]

/-- A written probability counts if it is read and lies between zero and one. -/
theorem value?_resolve_chance (written : List Char) (h : WrittenHead) (count : Nat) :
    value? ((chance written h).resolve : Resolving (Program α)) count =
      (value? h.resolve count).bind fun r =>
        (((Decimal.read? written).map Probability.ofDecimal).filter Probability.inUnit).map fun p =>
          (⟨[.chance p r.1], []⟩, r.2) := by
  rw [resolve, value?_bind]
  congr 1
  funext r
  cases (Decimal.read? written).map (Probability.ofDecimal (α := α)) with
  | none => rfl
  | some p =>
    by_cases hp : Probability.inUnit p = true
    · simp [Option.filter_some, hp]
    · simp only [Option.filter_some, hp]
      rfl

end Statement

/-! ## Places -/

/-- Whether an integer fits does not depend on its place. -/
theorem toOption_resolveInteger (o o' : Nat) (negative : Bool) (digits : List Char) :
    (resolveInteger o negative digits).toOption = (resolveInteger o' negative digits).toOption := by
  unfold resolveInteger
  simp only
  split
  · split <;> rfl
  · split <;> rfl

/-- Terms are resolved alike at all places, and so is what is built from terms. -/
theorem WrittenTerm.value?_unplaced (t : WrittenTerm) (count : Nat) :
    value? t.unplaced.resolve count = value? t.resolve count := by
  induction t generalizing count with
  | var x => rfl
  | integer o negative digits =>
    rw [unplaced, value?_resolve_integer, value?_resolve_integer, toOption_resolveInteger o 0]
  | compound f ts ih =>
    rw [unplaced, unplacedAll_eq_map, value?_resolve_compound, value?_resolve_compound,
      resolvesAll.value?_map ih]

theorem Formula.value?_unplaced (f : Formula WrittenTerm) (count : Nat) :
    value? f.unplaced.resolve count = value? f.resolve count := by
  induction f generalizing count with
  | holds t => rw [unplaced, value?_resolve_holds, value?_resolve_holds, t.value?_unplaced]
  | fails t => rw [unplaced, value?_resolve_fails, value?_resolve_fails, t.value?_unplaced]
  | every fs ih =>
    rw [unplaced, unplacedAll_eq_map, value?_resolve_every, value?_resolve_every,
      resolvesAll.value?_map ih]
  | some fs ih =>
    rw [unplaced, unplacedAll_eq_map, value?_resolve_some, value?_resolve_some,
      resolvesAll.value?_map ih]

theorem WrittenHead.value?_unplaced (h : WrittenHead) (count : Nat) :
    value? h.unplaced.resolve count = value? h.resolve count := by
  rw [value?_resolve, value?_resolve, unplaced, h.term.value?_unplaced]

variable [Probability α]

/-- Statements are resolved alike at all places. -/
theorem Statement.value?_unplaced (s : Statement) (count : Nat) :
    value? (s.unplaced.resolve : Resolving (Program α)) count = value? s.resolve count := by
  cases s with
  | query t => rw [unplaced, value?_resolve_query, value?_resolve_query, t.value?_unplaced]
  | chance p h => rw [unplaced, value?_resolve_chance, value?_resolve_chance, h.value?_unplaced]
  | rule h body =>
    simp only [unplaced, value?_resolve_rule, h.value?_unplaced, body.value?_unplaced]
  | fact h => rw [unplaced, value?_resolve_fact, value?_resolve_fact, h.value?_unplaced]

/-- Statements that are equal up to places resolve to the same program. -/
theorem value?_resolveStatements_congr {ss ss' : List Statement}
    (h : ss.map Statement.unplaced = ss'.map Statement.unplaced) (count : Nat) :
    value? (resolveStatements ss : Resolving (Program α)) count =
      value? (resolveStatements ss') count := by
  have hmap (ss : List Statement) (count : Nat) :
      value? (resolveStatements (ss.map Statement.unplaced) : Resolving (Program α)) count =
        value? (resolveStatements ss) count := by
    induction ss generalizing count with
    | nil => rfl
    | cons s ss ih =>
      simp only [List.map_cons, resolveStatements, value?_bind, value?_pure, s.value?_unplaced, ih]
  rw [← hmap ss, h, hmap]

end TimedInference.Syntax
