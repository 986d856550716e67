import Mathlib.Algebra.BigOperators.Intervals
import Mathlib.Algebra.Order.Ring.Defs
import Mathlib.Tactic.Linarith
import Mathlib.Tactic.Ring

/-!
# Exponentially weighted moving averages

`ewma d x bs` starts from `x` and moves towards each sample `b` in turn, keeping
the share `d` of the old value. Its closed form weighs a sample by the power of
`d` of its age. The start is forgotten at the rate `d ^ n`, and the average
stays in the unit interval with its samples.
-/

namespace Ewma

section Ring

variable {R : Type*} [CommRing R] {d x y : R}

/-- Move from `x` through the samples, with decay factor `d`. -/
def ewma (d x : R) (bs : List R) : R := bs.foldl (fun x b => x * d + (1 - d) * b) x

/-- The closed form: the start and the samples, weighted by their age. -/
def weightedAverage (d x : R) (bs : List R) : R :=
  x * d ^ bs.length +
    (1 - d) * ∑ i ∈ Finset.range bs.length, bs.getD i 0 * d ^ (bs.length - (i + 1))

@[simp] theorem ewma_nil : ewma d x [] = x := rfl

@[simp] theorem ewma_cons (b : R) (bs : List R) :
    ewma d x (b :: bs) = ewma d (x * d + (1 - d) * b) bs := rfl

/-- **Closed form.** -/
theorem ewma_eq_weightedAverage (bs : List R) : ewma d x bs = weightedAverage d x bs := by
  induction bs generalizing x with
  | nil => simp [weightedAverage]
  | cons b bs ih =>
      rw [ewma_cons, ih, weightedAverage, weightedAverage, List.length_cons,
        Finset.sum_range_succ']
      simp only [List.getD_cons_succ, List.getD_cons_zero, Nat.add_sub_add_right,
        Nat.sub_zero]
      ring

/-- Two averages of the same samples differ by what is left of their starts. -/
theorem ewma_sub_ewma (bs : List R) :
    ewma d x bs - ewma d y bs = (x - y) * d ^ bs.length := by
  rw [ewma_eq_weightedAverage, ewma_eq_weightedAverage, weightedAverage, weightedAverage]
  ring

theorem ewma_append (bs cs : List R) :
    ewma d x (bs ++ cs) = ewma d (ewma d x bs) cs :=
  List.foldl_append

/-- Equal samples are approached at the rate `d ^ k`. -/
theorem ewma_replicate (b : R) (k : ℕ) :
    ewma d x (List.replicate k b) = b + (x - b) * d ^ k := by
  induction k generalizing x with
  | zero => simp
  | succ k ih =>
      rw [List.replicate_succ, ewma_cons, ih]
      ring

end Ring

section Order

variable {R : Type*} [CommRing R] [LinearOrder R] [IsStrictOrderedRing R] {d x y b c : R}

/-- One step stays between the old value and the sample. -/
theorem step_mem_Icc (hd : 0 ≤ d ∧ d ≤ 1) (hx : 0 ≤ x ∧ x ≤ 1) (hb : 0 ≤ b ∧ b ≤ 1) :
    0 ≤ x * d + (1 - d) * b ∧ x * d + (1 - d) * b ≤ 1 := by
  obtain ⟨hd0, hd1⟩ := hd
  obtain ⟨hx0, hx1⟩ := hx
  obtain ⟨hb0, hb1⟩ := hb
  have hrest : 0 ≤ 1 - d := by linarith
  constructor
  · exact add_nonneg (mul_nonneg hx0 hd0) (mul_nonneg hrest hb0)
  · have hold : x * d ≤ d := mul_le_of_le_one_left hd0 hx1
    have hnew : (1 - d) * b ≤ 1 - d := mul_le_of_le_one_right hrest hb1
    linarith

/-- The average stays between the bounds of its start and its samples. -/
theorem ewma_mem_Icc (hd : 0 ≤ d ∧ d ≤ 1) (hx : 0 ≤ x ∧ x ≤ 1) {bs : List R}
    (hbs : ∀ b ∈ bs, 0 ≤ b ∧ b ≤ 1) : 0 ≤ ewma d x bs ∧ ewma d x bs ≤ 1 := by
  induction bs generalizing x with
  | nil => exact hx
  | cons b bs ih =>
      rw [List.forall_mem_cons] at hbs
      exact ih (step_mem_Icc hd hx hbs.1) hbs.2

/-! ## Order laws -/

/-- A greater start gives no smaller average. -/
theorem ewma_le_ewma (hd : 0 ≤ d) (hxy : x ≤ y) (bs : List R) :
    ewma d x bs ≤ ewma d y bs := by
  have hsub := ewma_sub_ewma (d := d) (x := x) (y := y) bs
  have hneg : (x - y) * d ^ bs.length ≤ 0 :=
    mul_nonpos_of_nonpos_of_nonneg (sub_nonpos.mpr hxy) (pow_nonneg hd _)
  linarith

/-- Raising one sample does not lower the average. -/
theorem ewma_append_cons_le (hd : 0 ≤ d ∧ d ≤ 1) (hbc : b ≤ c) (as bs : List R) :
    ewma d x (as ++ b :: bs) ≤ ewma d x (as ++ c :: bs) := by
  rw [ewma_append, ewma_append, ewma_cons, ewma_cons]
  apply ewma_le_ewma hd.1
  have hterm : (1 - d) * b ≤ (1 - d) * c :=
    mul_le_mul_of_nonneg_left hbc (sub_nonneg.mpr hd.2)
  linarith

/-- Of two neighbouring samples, the later one weighs more. -/
theorem ewma_swap_le (hcb : c ≤ b) (hd : 0 ≤ d) (bs : List R) :
    ewma d x (b :: c :: bs) ≤ ewma d x (c :: b :: bs) := by
  simp only [ewma_cons]
  apply ewma_le_ewma hd
  have hsquare : 0 ≤ (1 - d) ^ 2 * (b - c) :=
    mul_nonneg (sq_nonneg _) (sub_nonneg.mpr hcb)
  linarith

/-- Moving a greatest sample later does not lower the average. -/
theorem ewma_move_later_le (hd : 0 ≤ d) {cs : List R} (hcs : ∀ c ∈ cs, c ≤ b)
    (bs : List R) : ewma d x (b :: (cs ++ bs)) ≤ ewma d x (cs ++ b :: bs) := by
  induction cs generalizing x with
  | nil => exact le_refl _
  | cons c cs ih =>
      rw [List.forall_mem_cons] at hcs
      calc ewma d x (b :: (c :: cs ++ bs))
          ≤ ewma d x (c :: b :: (cs ++ bs)) := ewma_swap_le hcs.1 hd _
        _ ≤ ewma d x (c :: cs ++ b :: bs) := ih hcs.2

end Order

end Ewma
