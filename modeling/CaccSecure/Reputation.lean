import Mathlib.Data.Finmap
import Mathlib.Data.Rat.Lemmas
import Mathlib.Algebra.Order.Ring.Unbundled.Rat
import Mathlib.Algebra.Order.Field.Basic
import Mathlib.Tactic.Linarith
import Mathlib.Tactic.Ring

/-!
# Algorithm 4: reputation

A trust score per neighbour, over exact rationals. `update` reads the score
through `operator[]`, which stores 0 for an unknown neighbour before the
cold-start test looks for it.
-/

namespace CaccSecure

structure ReputationTable where
  initialTrust : ℚ
  decayFactor : ℚ
  scores : Finmap (fun _ : UInt32 => ℚ)

namespace ReputationTable

/-- The constructor. -/
def new (initialTrust decayFactor : ℚ) : ReputationTable :=
  ⟨initialTrust, decayFactor, ∅⟩

def getTrustScore (t : ReputationTable) (neighborId : UInt32) : ℚ :=
  match t.scores.lookup neighborId with
  | none => t.initialTrust
  | some score => score

/-- One step of the score, clamped to `[0, 1]`. -/
def decayed (decayFactor score : ℚ) (consistent : Bool) : ℚ :=
  let score :=
    if consistent then score * decayFactor + (1 - decayFactor) * 1
    else score * decayFactor
  max 0 (min 1 score)

def update (t : ReputationTable) (neighborId : UInt32) (consistent : Bool) :
    ReputationTable :=
  -- `double& score = m_scores[neighborId]` stores 0 when there is no entry
  let scores :=
    if neighborId ∈ t.scores then t.scores else t.scores.insert neighborId 0
  let score := (scores.lookup neighborId).getD 0
  let score :=
    if score = 0 ∧ scores.lookup neighborId = none then t.initialTrust
    else score
  { t with
    scores := scores.insert neighborId (decayed t.decayFactor score consistent) }

/-- The stored trust, which for a neighbour never updated is absent. -/
def stored (t : ReputationTable) (neighborId : UInt32) : Option ℚ :=
  t.scores.lookup neighborId

variable {t : ReputationTable} {h h' : UInt32} {consistent : Bool} {x : ℚ}

theorem getTrustScore_of_stored (hx : t.stored h = some x) :
    t.getTrustScore h = x := by
  unfold stored at hx
  rw [getTrustScore, hx]

/-- The cold-start test never succeeds: a first update starts from 0. -/
theorem stored_update_self : (t.update h consistent).stored h =
    some (decayed t.decayFactor ((t.stored h).getD 0) consistent) := by
  unfold stored update
  by_cases hmem : h ∈ t.scores
  · obtain ⟨x, hx⟩ := Finmap.mem_iff.mp hmem
    simp [hmem, hx]
  · have hnone := Finmap.lookup_eq_none.mpr hmem
    simp [hmem, hnone]

/-- An update touches no other neighbour. -/
theorem stored_update_of_ne (hne : h' ≠ h) :
    (t.update h consistent).stored h' = t.stored h' := by
  unfold stored update
  by_cases hmem : h ∈ t.scores <;>
    simp [hmem, Finmap.lookup_insert_of_ne _ hne]

@[simp] theorem initialTrust_update :
    (t.update h consistent).initialTrust = t.initialTrust := rfl

@[simp] theorem decayFactor_update :
    (t.update h consistent).decayFactor = t.decayFactor := rfl

theorem getTrustScore_eq : t.getTrustScore h = (t.stored h).getD t.initialTrust := by
  unfold getTrustScore stored
  cases t.scores.lookup h <;> rfl

theorem getTrustScore_update_of_ne (hne : h' ≠ h) :
    (t.update h consistent).getTrustScore h' = t.getTrustScore h' := by
  rw [getTrustScore_eq, getTrustScore_eq, stored_update_of_ne hne,
    initialTrust_update]

/-! ## Scores stay in `[0, 1)` -/

variable {d : ℚ}

theorem decayed_nonneg : 0 ≤ decayed d x consistent := le_max_left _ _

theorem decayed_true_eq (hd0 : 0 ≤ d) (hd1 : d ≤ 1) (hx0 : 0 ≤ x) (hx1 : x ≤ 1) :
    decayed d x true = 1 - d * (1 - x) := by
  have heq : x * d + (1 - d) * 1 = 1 - d * (1 - x) := by ring
  have hlow : 0 ≤ d * (1 - x) := mul_nonneg hd0 (by linarith)
  have hhigh : d * (1 - x) ≤ 1 := mul_le_one₀ hd1 (by linarith) (by linarith)
  simp only [decayed, if_true, heq]
  rw [min_eq_right (by linarith), max_eq_right (by linarith)]

theorem decayed_false_eq (hd0 : 0 ≤ d) (hd1 : d ≤ 1) (hx0 : 0 ≤ x) (hx1 : x ≤ 1) :
    decayed d x false = d * x := by
  have hlow : 0 ≤ x * d := mul_nonneg hx0 hd0
  have hhigh : x * d ≤ 1 := mul_le_one₀ hx1 hd0 hd1
  simp only [decayed, Bool.false_eq_true, if_false]
  rw [min_eq_right hhigh, max_eq_right hlow, mul_comm]

/-- A consistent event raises every trust below 1. -/
theorem lt_decayed_true (hd0 : 0 ≤ d) (hd1 : d < 1) (hx0 : 0 ≤ x) (hx1 : x < 1) :
    x < decayed d x true := by
  rw [decayed_true_eq hd0 hd1.le hx0 hx1.le]
  have hpos : 0 < (1 - d) * (1 - x) := mul_pos (by linarith) (by linarith)
  linarith

/-- An inconsistent event raises no trust. -/
theorem decayed_false_le (hd0 : 0 ≤ d) (hd1 : d ≤ 1) (hx0 : 0 ≤ x) (hx1 : x ≤ 1) :
    decayed d x false ≤ x := by
  rw [decayed_false_eq hd0 hd1 hx0 hx1]
  exact mul_le_of_le_one_left hx0 hd1

/-- With a positive decay factor no trust reaches 1. -/
theorem decayed_lt_one (hd0 : 0 < d) (hd1 : d ≤ 1) (hx0 : 0 ≤ x) (hx1 : x < 1) :
    decayed d x consistent < 1 := by
  cases consistent with
  | true =>
      rw [decayed_true_eq hd0.le hd1 hx0 hx1.le]
      have hpos : 0 < d * (1 - x) := mul_pos hd0 (by linarith)
      linarith
  | false => exact (decayed_false_le hd0.le hd1 hx0 hx1.le).trans_lt hx1

/-- Every stored trust lies in `[0, 1)`. -/
def Bounded (t : ReputationTable) : Prop :=
  ∀ h x, t.stored h = some x → 0 ≤ x ∧ x < 1

theorem bounded_new (initialTrust decayFactor : ℚ) :
    (new initialTrust decayFactor).Bounded := by
  intro h x hx
  simp [stored, new] at hx

theorem Bounded.update (ht : t.Bounded) (hd0 : 0 < t.decayFactor)
    (hd1 : t.decayFactor ≤ 1) : (t.update h consistent).Bounded := by
  intro h' x hx
  by_cases hne : h' = h
  · subst hne
    rw [stored_update_self] at hx
    cases hx
    have hprev : 0 ≤ (t.stored h').getD 0 ∧ (t.stored h').getD 0 < 1 := by
      cases hs : t.stored h' with
      | none => simp
      | some y => exact ht h' y hs
    exact ⟨decayed_nonneg, decayed_lt_one hd0 hd1 hprev.1 hprev.2⟩
  · rw [stored_update_of_ne hne] at hx
    exact ht h' x hx

end ReputationTable
end CaccSecure
