import Mathlib.Data.Nat.ModEq

/-!
# Circular sequence numbers

Numbers `0, …, M - 1` on a circle. `fwd M a b` is the number of steps forward
from `a` to `b`. A receiver with half window `h` takes `b` for newer than `a`
when `1 ≤ fwd M a b ≤ h`. On a circle of `2 * h` numbers this relation orders
no two numbers both ways, except for two that lie exactly opposite.
-/

namespace Circular

/-- Steps forward from `a` to `b` on the circle of `M` numbers. -/
def fwd (M a b : ℕ) : ℕ := (b + M - a) % M

/-- `b` is newer than `a` for a receiver with half window `h`. -/
def Newer (M h a b : ℕ) : Prop := 1 ≤ fwd M a b ∧ fwd M a b ≤ h

instance (M h a b : ℕ) : Decidable (Newer M h a b) :=
  inferInstanceAs (Decidable (_ ∧ _))

variable {M h a b : ℕ}

@[simp] theorem fwd_self : fwd M a a = 0 := by simp [fwd]

theorem fwd_of_le (hle : a ≤ b) (hb : b < M) : fwd M a b = b - a := by
  have hsub : b + M - a = (b - a) + M := by omega
  rw [fwd, hsub, Nat.add_mod_right, Nat.mod_eq_of_lt (by omega)]

theorem fwd_of_lt (hlt : b < a) (ha : a < M) : fwd M a b = b + M - a := by
  rw [fwd, Nat.mod_eq_of_lt (by omega)]

theorem fwd_eq_zero_iff (ha : a < M) (hb : b < M) : fwd M a b = 0 ↔ a = b := by
  rcases Nat.lt_or_ge b a with hlt | hle
  · rw [fwd_of_lt hlt ha]
    omega
  · rw [fwd_of_le hle hb]
    omega

/-- There and back is once around the circle. -/
theorem fwd_add_fwd (ha : a < M) (hb : b < M) (hne : a ≠ b) :
    fwd M a b + fwd M b a = M := by
  rcases Nat.lt_or_ge b a with hlt | hle
  · rw [fwd_of_lt hlt ha, fwd_of_le hlt.le ha]
    omega
  · rw [fwd_of_le hle hb, fwd_of_lt (by omega) hb]
    omega

/-- Distances between the residues of two counters, one ahead of the other. -/
theorem fwd_mod_mod (hM : 0 < M) (hle : a ≤ b) :
    fwd M (a % M) (b % M) = (b - a) % M := by
  have ha : a % M < M := Nat.mod_lt _ hM
  have hcong : (b % M + M - a % M) + a ≡ b + M [MOD M] := by
    have hcancel : b % M + M - a % M + a % M = b % M + M := by omega
    calc b % M + M - a % M + a
        ≡ b % M + M - a % M + a % M [MOD M] :=
          Nat.ModEq.add_left _ (Nat.mod_modEq a M).symm
      _ = b % M + M := hcancel
      _ ≡ b + M [MOD M] := (Nat.mod_modEq b M).add_right M
  have hcong' : b - a + a ≡ b + M [MOD M] := by
    rw [Nat.sub_add_cancel hle]
    simp [Nat.ModEq]
  exact Nat.ModEq.add_right_cancel' a (hcong.trans hcong'.symm)

theorem newer_irrefl : ¬ Newer M h a a := by simp [Newer]

/-- **No two orders.** On a circle of `2 * h` numbers, two numbers are each newer
than the other exactly when they lie `h` apart. -/
theorem newer_and_newer_iff (ha : a < 2 * h) (hb : b < 2 * h) :
    Newer (2 * h) h a b ∧ Newer (2 * h) h b a ↔ fwd (2 * h) a b = h := by
  by_cases hne : a = b
  · subst hne
    rw [fwd_self]
    exact iff_of_false (fun hab => newer_irrefl hab.1) (by omega)
  · have hround := fwd_add_fwd ha hb hne
    unfold Newer
    omega

/-- Of two distinct numbers that are not opposite, one is newer. -/
theorem newer_or_newer (ha : a < 2 * h) (hb : b < 2 * h) (hne : a ≠ b) :
    Newer (2 * h) h a b ∨ Newer (2 * h) h b a := by
  have hround := fwd_add_fwd ha hb hne
  have h1 := mt (fwd_eq_zero_iff ha hb).mp hne
  have h2 := mt (fwd_eq_zero_iff hb ha).mp hne.symm
  unfold Newer
  omega

/-- Within one lap, newer means larger as long as no two numbers are more
than `h - 1` apart. -/
theorem lt_of_newer (hlow : b ≤ a → a - b < h) (ha : a < 2 * h)
    (hab : Newer (2 * h) h a b) : a < b := by
  by_contra hge
  have hle : b ≤ a := Nat.le_of_not_lt hge
  have hgap := hlow hle
  rcases Nat.eq_or_lt_of_le hle with rfl | hlt
  · exact newer_irrefl hab
  · obtain ⟨-, hdist⟩ := hab
    rw [fwd_of_lt hlt ha] at hdist
    omega

/-! ## Distances along a path -/

theorem fwd_lt (hM : 0 < M) : fwd M a b < M := Nat.mod_lt _ hM

/-- Stepping forward from `a` by the distance to `b` leads to `b`. -/
theorem fwd_add_modEq (ha : a ≤ M) : fwd M a b + a ≡ b [MOD M] := by
  have hcancel : b + M - a + a = b + M := by omega
  calc fwd M a b + a
      ≡ b + M - a + a [MOD M] := (Nat.mod_modEq _ M).add_right a
    _ = b + M := hcancel
    _ ≡ b [MOD M] := by simp [Nat.ModEq]

/-- The steps forward along a path, lap after lap. -/
def travelled (M : ℕ) : ℕ → List ℕ → ℕ
  | _, [] => 0
  | a, b :: path => fwd M a b + travelled M b path

theorem travelled_add_modEq (ha : a < M) {path : List ℕ}
    (hpath : ∀ b ∈ path, b < M) :
    travelled M a path + a ≡ path.getLastD a [MOD M] := by
  induction path generalizing a with
  | nil => simp [travelled, Nat.ModEq]
  | cons b path ih =>
      have hb : b < M := hpath b List.mem_cons_self
      have hrest := ih hb fun c hc => hpath c (List.mem_cons_of_mem b hc)
      have hregroup : fwd M a b + travelled M b path + a =
          travelled M b path + (fwd M a b + a) := by omega
      rw [travelled, hregroup, List.getLastD_cons]
      exact ((fwd_add_modEq ha.le).add_left _).trans hrest

/-- Up to whole laps, a path leads as far as the distance to its end. -/
theorem travelled_mod (ha : a < M) {path : List ℕ} (hpath : ∀ b ∈ path, b < M) :
    travelled M a path % M = fwd M a (path.getLastD a) := by
  have hcong : travelled M a path ≡ fwd M a (path.getLastD a) [MOD M] :=
    Nat.ModEq.add_right_cancel' a
      ((travelled_add_modEq ha hpath).trans (fwd_add_modEq ha.le).symm)
  exact Nat.mod_eq_of_modEq hcong (fwd_lt (by omega))

/-- A number is newer than the end of a path from it exactly when the path
has led into the far half of a lap. -/
theorem newer_end_iff (ha : a < 2 * h) {path : List ℕ} (hpath : ∀ b ∈ path, b < 2 * h) :
    Newer (2 * h) h (path.getLastD a) a ↔ h ≤ travelled (2 * h) a path % (2 * h) := by
  have hend : path.getLastD a < 2 * h := by
    have hend : path.getLastD a ∈ a :: path := List.getLastD_mem_cons
    rcases List.mem_cons.mp hend with heq | hmem
    · rw [heq]
      exact ha
    · exact hpath _ hmem
  rw [travelled_mod ha hpath]
  by_cases heq : a = path.getLastD a
  · rw [← heq, fwd_self]
    exact ⟨fun hnew => absurd hnew newer_irrefl, fun hle => by omega⟩
  · have hround := fwd_add_fwd ha hend heq
    have hlt : fwd (2 * h) a (path.getLastD a) < 2 * h := fwd_lt (by omega)
    unfold Newer
    omega

end Circular
