import CaccSecure.CachingProbability
import CaccSecure.TrustAverage
import Mathlib.Algebra.Order.Group.MinMax

/-!
# What conduct does to caching

The reputation reaches the caching decision only through equation (1), whose
arguments it weighs. The probability moves by at most a fixed multiple of the
trust, and `k` packets of one conduct bring the trust within `(9/10)^k` of 0 or
of 1, so that equation (1) forgets everything the hop did before.
-/

namespace CaccSecure

namespace CaccCore

/-- How far equation (1) can move when the trust moves by 1. -/
def sensitivity (core : CaccCore) (ph rhc : ℚ) : ℚ :=
  core.alpha * (ph / 4) + (1 - core.alpha) * (rhc / ((core.maxHops.toNat : ℚ) + 1))

variable {core : CaccCore} {ph rhc t u : ℚ}

theorem sensitivity_nonneg (hα : 0 ≤ core.alpha ∧ core.alpha ≤ 1) (hph : 0 ≤ ph)
    (hrhc : 0 ≤ rhc) : 0 ≤ core.sensitivity ph rhc := by
  have hpop : 0 ≤ core.alpha * (ph / 4) := mul_nonneg hα.1 (by linarith)
  have hloc : 0 ≤ rhc / ((core.maxHops.toNat : ℚ) + 1) :=
    div_nonneg hrhc core.maxHops_add_one_pos.le
  exact add_nonneg hpop (mul_nonneg (sub_nonneg.mpr hα.2) hloc)

/-- The popularity term has its greatest slope at trust 0. -/
theorem popularity_sub_le (hph : 0 ≤ ph) (ht : 0 ≤ t) (htu : t ≤ u) :
    1 / (ph * t + 2) - 1 / (ph * u + 2) ≤ ph / 4 * (u - t) := by
  have hleft : 2 ≤ ph * t + 2 := by
    have := mul_nonneg hph ht
    linarith
  have hright : 2 ≤ ph * u + 2 := by
    have := mul_nonneg hph (ht.trans htu)
    linarith
  have hproduct : 4 ≤ (ph * t + 2) * (ph * u + 2) := by nlinarith
  have hpos : 0 ≤ ph * (u - t) := mul_nonneg hph (sub_nonneg.mpr htu)
  have hsplit : 1 / (ph * t + 2) - 1 / (ph * u + 2) =
      ph * (u - t) / ((ph * t + 2) * (ph * u + 2)) := by
    have hne : ph * t + 2 ≠ 0 := by linarith
    have hne' : ph * u + 2 ≠ 0 := by linarith
    field_simp
    ring
  rw [hsplit]
  calc ph * (u - t) / ((ph * t + 2) * (ph * u + 2))
      ≤ ph * (u - t) / 4 := div_le_div_of_nonneg_left hpos (by norm_num) hproduct
    _ = ph / 4 * (u - t) := by ring

theorem weightedSum_sub_le (hα : 0 ≤ core.alpha ∧ core.alpha ≤ 1) (hph : 0 ≤ ph)
    (ht : 0 ≤ t) (htu : t ≤ u) :
    core.weightedSum (ph * u) (rhc * u + 1) - core.weightedSum (ph * t) (rhc * t + 1) ≤
      core.sensitivity ph rhc * (u - t) := by
  have hpop := mul_le_mul_of_nonneg_left (popularity_sub_le hph ht htu) hα.1
  have hsplit : core.weightedSum (ph * u) (rhc * u + 1) -
        core.weightedSum (ph * t) (rhc * t + 1) =
      core.alpha * (1 / (ph * t + 2) - 1 / (ph * u + 2)) +
        (1 - core.alpha) * (rhc / ((core.maxHops.toNat : ℚ) + 1)) * (u - t) := by
    rw [weightedSum, weightedSum]
    ring
  rw [hsplit, sensitivity]
  linarith

/-- **Sensitivity to trust.** The clamp does not add to it. -/
theorem abs_probability_sub_le (hα : 0 ≤ core.alpha ∧ core.alpha ≤ 1) (hph : 0 ≤ ph)
    (hrhc : 0 ≤ rhc) (ht : 0 ≤ t) (hu : 0 ≤ u) :
    |core.probability (ph * t) (rhc * t + 1) - core.probability (ph * u) (rhc * u + 1)| ≤
      core.sensitivity ph rhc * |t - u| := by
  wlog htu : u ≤ t with hsymm
  · rw [abs_sub_comm, abs_sub_comm t u]
    exact hsymm hα hph hrhc hu ht (le_of_lt (not_le.mp htu))
  have hmono : core.weightedSum (ph * u) (rhc * u + 1) ≤
      core.weightedSum (ph * t) (rhc * t + 1) := by
    apply weightedSum_le_weightedSum hα (mul_nonneg hph hu)
    · exact mul_le_mul_of_nonneg_left htu hph
    · have := mul_le_mul_of_nonneg_left htu hrhc
      linarith
  have hclamp : ∀ x y : ℚ, |max 0 (min 1 x) - max 0 (min 1 y)| ≤ |x - y| := by
    intro x y
    calc |max 0 (min 1 x) - max 0 (min 1 y)|
        = |max (min 1 x) 0 - max (min 1 y) 0| := by rw [max_comm, max_comm 0]
      _ ≤ |min 1 x - min 1 y| := abs_max_sub_max_le_abs _ _ _
      _ ≤ max |1 - 1| |x - y| := abs_min_sub_min_le_max _ _ _ _
      _ = |x - y| := by simp
  rw [probability_eq_clamp, probability_eq_clamp, abs_of_nonneg (sub_nonneg.mpr htu)]
  refine (hclamp _ _).trans ?_
  rw [abs_of_nonneg (sub_nonneg.mpr hmono)]
  exact weightedSum_sub_le hα hph hu htu

end CaccCore

namespace RouterPipeline

variable {Name : Type} [DecidableEq Name] {P : Primitives Name}
  {s : RouterPipeline Name × Rng} {hop : UInt32} {good : Bool} {a : Arrival Name}

/-! ## The trust after one conduct -/

/-- The updates that a run makes to the reputation table. -/
theorem reputation_final (P : Primitives Name) (s : RouterPipeline Name × Rng)
    (xs : List (Arrival Name)) :
    (Machine.final (process P) s xs).1.reputation =
      Machine.final ReputationTable.record s.1.reputation
        ((Machine.trace (process P) s xs).map fun e => (e.inp.prevHopId, e.out.forwards)) := by
  induction xs generalizing s with
  | nil => rfl
  | cons a xs ih =>
      show (Machine.final (process P) (process P s a).2 xs).1.reputation = _
      rw [ih, reputation_process, Machine.trace, List.map_cons, forwards_process]
      rfl

/-- Of a hop with one conduct the table hears one thing. -/
theorem history_of_conduct {xs : List (Arrival Name)}
    (hconduct : ∀ e ∈ Machine.trace (process P) s xs,
      e.inp.prevHopId = hop → e.out.forwards = good) :
    ReputationTable.history hop
      ((Machine.trace (process P) s xs).map fun e => (e.inp.prevHopId, e.out.forwards)) =
        List.replicate (xs.countP fun a => a.prevHopId = hop) good := by
  induction xs generalizing s with
  | nil => rfl
  | cons a xs ih =>
      rw [Machine.trace, List.forall_mem_cons] at hconduct
      rcases hconduct with ⟨hhead, htail⟩
      rw [Machine.trace, List.map_cons, List.countP_cons]
      by_cases hhop : a.prevHopId = hop
      · subst hhop
        have hgood : (process P s a).1.forwards = good := hhead rfl
        rw [ReputationTable.history_cons_self, ih htail, hgood]
        simp [List.replicate_succ]
      · rw [ReputationTable.history_cons_of_ne hhop, ih htail]
        simp [hhop]

theorem Reachable.level_mem (hs : Reachable P s) (hop : UInt32) :
    0 ≤ s.1.reputation.level hop ∧ s.1.reputation.level hop ≤ 1 := by
  rw [ReputationTable.level]
  cases hstored : s.1.reputation.stored hop with
  | none => norm_num
  | some x =>
      rcases hs.reputation.2 hop x hstored with ⟨hnonneg, hlt⟩
      exact ⟨hnonneg, hlt.le⟩

/-- **Run.** The trust comes within `(9/10)^k` of what the conduct deserves. -/
theorem Reachable.abs_trust_sub_le (hs : Reachable P s) {xs : List (Arrival Name)}
    (hconduct : ∀ e ∈ Machine.trace (RouterPipeline.process P) s xs,
      e.inp.prevHopId = hop → e.out.forwards = good) :
    |(Machine.final (RouterPipeline.process P) s xs).1.reputation.getTrustScore hop -
        ReputationTable.evidence good| ≤
      (9 / 10) ^ xs.countP fun a => a.prevHopId = hop := by
  have hdecay := hs.reputation.1
  have hunit : 0 ≤ s.1.reputation.decayFactor ∧ s.1.reputation.decayFactor ≤ 1 := by
    rw [hdecay]
    norm_num
  have hevidence := ReputationTable.evidence_mem good
  have hdistance : ∀ t : ℚ, 0 ≤ t → t ≤ 1 → |t - ReputationTable.evidence good| ≤ 1 := by
    intro t ht ht'
    rw [abs_le]
    constructor <;> linarith
  by_cases hempty : (xs.countP fun a => a.prevHopId = hop) = 0
  -- no packet of the hop: any trust is within 1 of any conduct
  · have htrust := (hs.final xs).trust_mem hop
    rw [hempty, pow_zero]
    exact hdistance _ htrust.1 htrust.2.le
  · have hlevel := hs.level_mem hop
    have hstored : (Machine.final ReputationTable.record s.1.reputation
        ((Machine.trace (RouterPipeline.process P) s xs).map
          fun e => (e.inp.prevHopId, e.out.forwards))).stored hop = _ :=
      ReputationTable.stored_final hunit hlevel
    rw [history_of_conduct hconduct, if_neg (by simpa using hempty), List.map_replicate,
      Ewma.ewma_replicate, hdecay] at hstored
    rw [reputation_final, ReputationTable.getTrustScore_of_stored hstored,
      add_sub_cancel_left, abs_mul, abs_of_nonneg (by positivity : (0 : ℚ) ≤ (9 / 10) ^ _)]
    exact mul_le_of_le_one_left (by positivity) (hdistance _ hlevel.1 hlevel.2)

/-- **What conduct does to caching.** Over exact rationals, from every reachable state,
if the `k` packets that have come from a hop since are all dropped, or all pass, the trust
in the hop is within `(9/10)^k` of 0 or of 1, and the probability with which the next
packet of the hop that passes is cached is within `(9/10)^k` times the sensitivity of
equation (1) of what it is for a hop without any trust or with full trust. -/
theorem conduct_decides_caching (P : Primitives Name) (s : RouterPipeline Name × Rng)
    (hs : Reachable P s) (xs : List (Arrival Name)) (hop : UInt32) (good : Bool)
    (hconduct : ∀ e ∈ Machine.trace (process P) s xs,
      e.inp.prevHopId = hop → e.out.forwards = good) :
    let post := Machine.final (process P) s xs
    let k := xs.countP fun a => a.prevHopId = hop
    let deserved : ℚ := if good then 1 else 0
    |post.1.reputation.getTrustScore hop - deserved| ≤ (9 / 10) ^ k ∧
      ∀ a : Arrival Name, a.prevHopId = hop → post.1.passes P a = true →
        let ph : ℚ := (post.1.weightedPh a).toNat
        let rhc : ℚ := a.hdr.rhc.toNat
        let core := post.1.caccCore
        |(process P post a).2.1.caccCore.lastP -
            core.probability (ph * deserved) (rhc * deserved + 1)| ≤
          (core.alpha * (ph / 4) + (1 - core.alpha) * (rhc / (core.maxHops.toNat + 1))) *
            (9 / 10) ^ k := by
  intro post k deserved
  have htrust : |post.1.reputation.getTrustScore hop - deserved| ≤ (9 / 10) ^ k :=
    hs.abs_trust_sub_le hconduct
  refine ⟨htrust, ?_⟩
  rintro a rfl hpass ph rhc core
  have hpost : Reachable P post := hs.final xs
  have hα := hpost.parameters.2
  have hph : 0 ≤ ph := Nat.cast_nonneg _
  have hrhc : 0 ≤ rhc := Nat.cast_nonneg _
  have hdeserved : 0 ≤ deserved := (ReputationTable.evidence_mem good).1
  rw [lastP_process hpass, effectivePh_rateVerdict]
  refine (CaccCore.abs_probability_sub_le hα hph hrhc (hpost.trust_mem a.prevHopId).1
    hdeserved).trans ?_
  exact mul_le_mul_of_nonneg_left htrust (CaccCore.sensitivity_nonneg hα hph hrhc)

/-- Three forged packets of a hop, and then one that passes. -/
theorem conduct_decides_caching_sample :
    let forged := sampleArrival ⟨0, 0, 1, 0⟩
    let post := Machine.final (process samplePrimitives) (sampleRouter 1)
      [forged, forged, forged]
    let a := sampleArrival (sampleHeader 0 0 1)
    |post.1.reputation.getTrustScore 7 - 0| ≤ (9 / 10 : ℚ) ^ 3 ∧
      |(process samplePrimitives post a).2.1.caccCore.lastP -
          post.1.caccCore.probability (((post.1.weightedPh a).toNat : ℚ) * 0)
            ((a.hdr.rhc.toNat : ℚ) * 0 + 1)| ≤
        (post.1.caccCore.alpha * (((post.1.weightedPh a).toNat : ℚ) / 4) +
          (1 - post.1.caccCore.alpha) *
            ((a.hdr.rhc.toNat : ℚ) / (post.1.caccCore.maxHops.toNat + 1))) *
          (9 / 10 : ℚ) ^ 3 := by
  intro forged post a
  obtain ⟨htrust, hcaching⟩ := conduct_decides_caching samplePrimitives (sampleRouter 1)
    (.new _ _ _ _ _ _ _) [forged, forged, forged] 7 false (by decide +kernel)
  exact ⟨htrust, hcaching a rfl (by decide +kernel)⟩

end RouterPipeline
end CaccSecure
