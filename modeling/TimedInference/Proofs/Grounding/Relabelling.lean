import Mathlib.Algebra.Order.BigOperators.Group.Finset
import Mathlib.Data.Int.ConditionallyCompleteOrder
import Mathlib.Order.Monotone.Basic
import Mathlib.Tactic.Linarith
import TimedInference.Number.Rational
import TimedInference.Proofs.Grounding.Integers
import TimedInference.Proofs.Grounding.Timestamps

/-!
# Grounding commutes with relabelling the integers that occur

A function that is strictly increasing on the integers of a program need not be part of one that is strictly
increasing on all integers: it may bring integers closer together than there is room for those between
them.  But followed by a second function it is, when the second one spreads its values far enough
(`exists_increasing_comp`).  So a program and its image under the function have a common image under two
functions that are strictly increasing everywhere, with which grounding commutes.  A ground program has no
integers but those of its program, so what is known of the images can be carried back
(`Program.ground_relabelled`).
-/

namespace TimedInference

/-! ## Strictly increasing functions -/

/-- The identity from zero on, and steeper below. -/
def bend (slope d : Int) : Int := if 0 ≤ d then d else slope * d

/-- A function that is steeper below zero is still strictly increasing. -/
theorem bend_increasing {slope : Int} (h : 0 < slope) : Increasing (bend slope) := by
  intro a b hab
  unfold bend
  split
  · rw [if_pos (by omega)]
    exact hab
  · split
    · have hneg : slope * a < 0 := mul_neg_of_pos_of_neg h (by omega)
      omega
    · exact mul_lt_mul_of_pos_left hab h

/-- Takes the value of a function at an argument to the place of the argument, when places are spread out by
more than twice a bound on arguments and values. -/
def place (B : Int) (m : Int → Int) (s z : Int) : Int :=
  (2 * B + 1) * s + bend (2 * B * (2 * B + 1) + 1) (z - m s)

section Places

variable {B : Int} {m : Int → Int}

/-- Taking values to places is strictly increasing. -/
theorem place_increasing (hB : 0 ≤ B) (s : Int) : Increasing (place B m s) := by
  intro a b hab
  have hslope : 0 < 2 * B * (2 * B + 1) + 1 :=
    Int.lt_add_one_of_le (mul_nonneg (by omega) (by omega))
  exact add_lt_add_right (bend_increasing hslope (by omega)) _

theorem place_self (n : Int) : place B m n (m n) = (2 * B + 1) * n := by simp [place, bend]

/-- Places are further apart than any two values are, and the bend is steeper than that, so where one value
is taken to its place the functions for other values stay at or below it. -/
theorem place_le {s n : Int} (hs : |s| ≤ B) (hn : |n| ≤ B) (hms : |m s| ≤ B) (hmn : |m n| ≤ B)
    (hbelow : s < n → m s < m n) (habove : n < s → m n < m s) :
    place B m s (m n) ≤ (2 * B + 1) * n := by
  rw [abs_le] at hs hn hms hmn
  rcases lt_trichotomy s n with hlt | rfl | hlt
  · have hvalues := hbelow hlt
    have hfar : (2 * B + 1) * 1 ≤ (2 * B + 1) * (n - s) :=
      mul_le_mul_of_nonneg_left (by omega) (by omega)
    rw [place, bend, if_pos (by omega)]
    linarith
  · exact (place_self s).le
  · have hvalues := habove hlt
    have hsteep : (2 * B * (2 * B + 1) + 1) * (m n - m s) ≤ (2 * B * (2 * B + 1) + 1) * (-1) :=
      mul_le_mul_of_nonneg_left (by omega)
        (add_nonneg (mul_nonneg (by omega) (by omega)) zero_le_one)
    have hnear : (2 * B + 1) * (s - n) ≤ (2 * B + 1) * (2 * B) :=
      mul_le_mul_of_nonneg_left (by omega) (by omega)
    rw [place, bend, if_neg (by omega)]
    linarith

/-- Finitely many arguments and their values are bounded. -/
theorem exists_abs_le (S : Finset Int) (m : Int → Int) :
    ∃ B : Int, 0 ≤ B ∧ ∀ s ∈ S, |s| ≤ B ∧ |m s| ≤ B := by
  have hterm : ∀ s ∈ S, 0 ≤ |s| + |m s| := fun s _ => add_nonneg (abs_nonneg s) (abs_nonneg (m s))
  refine ⟨∑ s ∈ S, (|s| + |m s|), Finset.sum_nonneg hterm, fun s hs => ?_⟩
  have hle := Finset.single_le_sum hterm hs
  exact ⟨(le_add_of_nonneg_right (abs_nonneg _)).trans hle,
    (le_add_of_nonneg_left (abs_nonneg _)).trans hle⟩

end Places

/-- A function that is strictly increasing on finitely many integers becomes part of one that is so everywhere
when it is followed by a suitable function of the same kind. -/
theorem exists_increasing_comp {S : Finset Int} {m : Int → Int} (hm : StrictMonoOn m S) :
    ∃ f u : Int → Int, Increasing f ∧ Increasing u ∧ ∀ n ∈ S, u (m n) = f n := by
  rcases S.eq_empty_or_nonempty with rfl | hS
  · exact ⟨id, id, fun _ _ h => h, fun _ _ h => h, by simp⟩
  obtain ⟨B, hB, hbound⟩ := exists_abs_le S m
  -- the second function is the greatest of those that take one value each to its place
  refine ⟨fun n => (2 * B + 1) * n, fun z => S.sup' hS (place B m · z),
    fun a b hab => mul_lt_mul_of_pos_left hab (by omega), fun a b hab => ?_, fun n hn => ?_⟩
  · obtain ⟨s, hs, hmax⟩ := S.exists_mem_eq_sup' hS (place B m · a)
    calc S.sup' hS (place B m · a) = place B m s a := hmax
      _ < place B m s b := place_increasing hB s hab
      _ ≤ S.sup' hS (place B m · b) := Finset.le_sup' (place B m · b) hs
  · refine le_antisymm (Finset.sup'_le hS _ fun s hs => ?_) ?_
    · exact place_le (hbound s hs).1 (hbound n hn).1 (hbound s hs).2 (hbound n hn).2 (hm hs hn)
        (hm hn hs)
    · exact (place_self n).ge.trans (Finset.le_sup' (place B m · (m n)) hn)

/-! ## Grounding -/

namespace Program

variable {α : Type} [Probability α]

/-- Grounding commutes with every function that is strictly increasing on the integers of the program: both
programs fail, for the same kind of reason, or the ground programs correspond, with equal numbers and
probabilities. -/
theorem ground_relabelled {p : Program α} {m : Int → Int}
    (hm : StrictMonoOn m {n | n ∈ p.integers}) (limit : Nat) :
    Alike (fun g g' => g' = g.mapInts m) (p.ground limit).outcome
      ((p.mapInts m).ground limit).outcome := by
  have hS : StrictMonoOn m (p.integers.toFinset : Set Int) := by rwa [List.coe_toFinset]
  obtain ⟨f, u, hf, hu, hfu⟩ := exists_increasing_comp hS
  have hcomp : ∀ n ∈ p.integers, u (m n) = f n := fun n hn => hfu n (List.mem_toFinset.2 hn)
  -- the common image of both programs
  have himage : (p.mapInts m).mapInts u = p.mapInts f := mapInts_mapInts hcomp
  have hleft := ground_mapInts hf p limit
  have hright := ground_mapInts hu (p.mapInts m) limit
  rw [himage] at hright
  refine hleft.meet hright fun g c g' hg hc hc' => ?_
  refine GroundProgram.mapInts_injective hu ?_
  calc g'.mapInts u = c := hc'.symm
    _ = g.mapInts f := hc
    _ = (g.mapInts m).mapInts u :=
        (GroundProgram.mapInts_mapInts fun n hn => hcomp n (mem_integers_of_ground hg n hn)).symm

/-- A light that is switched from time zero to time ten. -/
def light : Program Rat where
  clauses := [.fact (.compound "next" [.int 0, .int 10]), .chance (mkRat 1 2) (.compound "lit" [.int 0]),
    .rule ⟨.compound "lit" [.var "T"],
      [⟨.compound "next" [.var "S", .var "T"], true⟩, ⟨.compound "lit" [.var "S"], false⟩]⟩]
  queries := [.compound "lit" [.int 10]]

/-- What the light program says about time ten, without variables. -/
def groundLight : GroundProgram Rat where
  choices := [⟨.compound "lit" [.int 0], mkRat 1 2⟩]
  atoms := [⟨.compound "next" [.int 0, .int 10], true, [], []⟩,
    ⟨.compound "lit" [.int 0], false, [0], []⟩,
    ⟨.compound "lit" [.int 10], false, [], [[⟨0, true⟩, ⟨1, false⟩]]⟩]
  queries := [(.compound "lit" [.int 10], some 2)]

/-- Time zero becomes four, and every other time five. -/
def closer (n : Int) : Int := if n = 0 then 4 else 5

/-- Two times may be brought as close together as integers can be. -/
theorem ground_relabelled_light :
    StrictMonoOn closer {n | n ∈ light.integers} ∧
      ((light.mapInts closer).ground 10).outcome = .ok (groundLight.mapInts closer) := by
  have hm : StrictMonoOn closer {n | n ∈ light.integers} := by
    have hall : ∀ a ∈ light.integers, ∀ b ∈ light.integers, a < b → closer a < closer b := by decide
    exact fun a ha b hb => hall a ha b hb
  have grounds : (light.ground 10).outcome = .ok groundLight := by decide +kernel
  have halike := ground_relabelled hm 10
  rw [grounds] at halike
  obtain ⟨g', hg', rfl⟩ := halike.exists_ok
  exact ⟨hm, hg'⟩

end Program

end TimedInference
