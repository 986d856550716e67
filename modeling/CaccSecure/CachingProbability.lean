import CaccSecure.Books
import CaccSecure.DroppedPackets
import CaccSecure.PhInflation
import Mathlib.Tactic.FieldSimp

/-!
# The caching probability

Equation (1) as a function of popularity, hop count and trust. It is monotone in
each of them and bounded away from 0. The weighted sum stays below 1 for the hop
counts up to `H_max`; no check of the pipeline keeps the others out, and for
these the clamp decides.
-/

namespace CaccSecure

namespace CaccCore

/-- Equation (1) before the clamp. -/
def weightedSum (core : CaccCore) (phEff rhcEff : ℚ) : ℚ :=
  core.alpha * (1 - 1 / (phEff + 2)) +
    (1 - core.alpha) * (rhcEff / ((core.maxHops.toNat : ℚ) + 1))

variable {core : CaccCore} {ph ph' rhc rhc' : ℚ}

theorem probability_eq_clamp : core.probability ph rhc =
    max 0 (min 1 (core.weightedSum ph rhc)) := rfl

theorem alpha_new_mem (alpha : ℚ) (maxHops : UInt8) :
    0 ≤ (new alpha maxHops).alpha ∧ (new alpha maxHops).alpha ≤ 1 := by
  simp only [new]
  split_ifs with hout
  · exact ⟨le_max_left _ _, max_le zero_le_one (min_le_left _ _)⟩
  · rw [not_or, not_lt, not_lt] at hout
    exact hout

theorem maxHops_add_one_pos (core : CaccCore) : 0 < (core.maxHops.toNat : ℚ) + 1 := by
  positivity

theorem weightedSum_le_weightedSum (hα : 0 ≤ core.alpha ∧ core.alpha ≤ 1)
    (hph : 0 ≤ ph) (hph' : ph ≤ ph') (hrhc : rhc ≤ rhc') :
    core.weightedSum ph rhc ≤ core.weightedSum ph' rhc' := by
  have hpop : 1 / (ph' + 2) ≤ 1 / (ph + 2) :=
    one_div_le_one_div_of_le (by linarith) (by linarith)
  have hloc : rhc / ((core.maxHops.toNat : ℚ) + 1) ≤
      rhc' / ((core.maxHops.toNat : ℚ) + 1) :=
    div_le_div_of_nonneg_right hrhc core.maxHops_add_one_pos.le
  apply add_le_add
  · exact mul_le_mul_of_nonneg_left (by linarith) hα.1
  · exact mul_le_mul_of_nonneg_left hloc (sub_nonneg.mpr hα.2)

/-- **Monotonicity.** The clamp keeps the order of the sums. -/
theorem probability_le_probability (hα : 0 ≤ core.alpha ∧ core.alpha ≤ 1)
    (hph : 0 ≤ ph) (hph' : ph ≤ ph') (hrhc : rhc ≤ rhc') :
    core.probability ph rhc ≤ core.probability ph' rhc' := by
  rw [probability_eq_clamp, probability_eq_clamp]
  exact max_le_max le_rfl
    (min_le_min le_rfl (weightedSum_le_weightedSum hα hph hph' hrhc))

/-- The sum for a packet without popularity and with no hop but this one. -/
theorem weightedSum_zero_one (core : CaccCore) : core.weightedSum 0 1 =
    core.alpha / 2 + (1 - core.alpha) / ((core.maxHops.toNat : ℚ) + 1) := by
  rw [weightedSum]
  ring

/-- Hop counts up to `H_max` need no clamp. -/
theorem weightedSum_le_one (hα : 0 ≤ core.alpha ∧ core.alpha ≤ 1) (hph : 0 ≤ ph)
    (hrhc : rhc ≤ core.maxHops.toNat + 1) : core.weightedSum ph rhc ≤ 1 := by
  have hpop : 0 ≤ 1 / (ph + 2) := by positivity
  have hloc : rhc / ((core.maxHops.toNat : ℚ) + 1) ≤ 1 :=
    (div_le_one core.maxHops_add_one_pos).mpr hrhc
  have hleft : core.alpha * (1 - 1 / (ph + 2)) ≤ core.alpha :=
    mul_le_of_le_one_right hα.1 (by linarith)
  have hright : (1 - core.alpha) * (rhc / ((core.maxHops.toNat : ℚ) + 1)) ≤
      1 - core.alpha := mul_le_of_le_one_right (sub_nonneg.mpr hα.2) hloc
  rw [weightedSum]
  linarith

theorem weightedSum_zero_one_le (hα : 0 ≤ core.alpha ∧ core.alpha ≤ 1) :
    core.weightedSum 0 1 ≤ 1 := by
  refine weightedSum_le_one hα le_rfl ?_
  have hhops : (0 : ℚ) ≤ core.maxHops.toNat := Nat.cast_nonneg _
  linarith

/-- Every packet that counts this hop has at least the sum of that one. -/
theorem weightedSum_zero_one_le_weightedSum (hα : 0 ≤ core.alpha ∧ core.alpha ≤ 1)
    (hph : 0 ≤ ph) (hrhc : 1 ≤ rhc) :
    core.weightedSum 0 1 ≤ core.weightedSum ph rhc :=
  weightedSum_le_weightedSum hα le_rfl hph hrhc

theorem weightedSum_zero_one_nonneg (hα : 0 ≤ core.alpha ∧ core.alpha ≤ 1) :
    0 ≤ core.weightedSum 0 1 := by
  rw [weightedSum_zero_one]
  have hrest : 0 ≤ 1 - core.alpha := sub_nonneg.mpr hα.2
  have hhops := core.maxHops_add_one_pos
  have hleft := div_nonneg hα.1 zero_le_two
  have hright := div_nonneg hrest hhops.le
  linarith

/-- **Bounds.** The probability is at least that sum, and at most 1. -/
theorem probability_mem (hα : 0 ≤ core.alpha ∧ core.alpha ≤ 1) (hph : 0 ≤ ph)
    (hrhc : 1 ≤ rhc) : core.weightedSum 0 1 ≤ core.probability ph rhc ∧
      core.probability ph rhc ≤ 1 := by
  rw [probability_eq_clamp]
  constructor
  · exact le_max_of_le_right (le_min (weightedSum_zero_one_le hα)
      (weightedSum_zero_one_le_weightedSum hα hph hrhc))
  · exact max_le zero_le_one (min_le_left _ _)

/-- The distance of the sum to 1, over a common denominator. -/
theorem one_sub_weightedSum (hph : 0 ≤ ph) : 1 - core.weightedSum ph (rhc + 1) =
    (core.alpha * (core.maxHops.toNat + 1) -
        (1 - core.alpha) * (rhc - core.maxHops.toNat) * (ph + 2)) /
      ((ph + 2) * (core.maxHops.toNat + 1)) := by
  have hpop : ph + 2 ≠ 0 := by positivity
  have hhops : (core.maxHops.toNat : ℚ) + 1 ≠ 0 := core.maxHops_add_one_pos.ne'
  rw [weightedSum]
  field_simp
  ring

theorem weightedSum_lt_one_iff (hph : 0 ≤ ph) : core.weightedSum ph (rhc + 1) < 1 ↔
    (1 - core.alpha) * (rhc - core.maxHops.toNat) * (ph + 2) <
      core.alpha * (core.maxHops.toNat + 1) := by
  have hdenom : 0 < (ph + 2) * ((core.maxHops.toNat : ℚ) + 1) :=
    mul_pos (by linarith) core.maxHops_add_one_pos
  rw [← sub_pos, one_sub_weightedSum hph, div_pos_iff_of_pos_right hdenom, sub_pos]

/-- Weighted with a trust of at most 1, an RHC up to `H_max` stays in range. -/
theorem weightedSum_le_one_of_le (hα : 0 ≤ core.alpha ∧ core.alpha ≤ 1) (hph : 0 ≤ ph)
    {t : ℚ} (ht : t ≤ 1) {hops : UInt8} (hle : hops ≤ core.maxHops) :
    core.weightedSum ph (hops.toNat * t + 1) ≤ 1 := by
  have hhops : (hops.toNat : ℚ) ≤ core.maxHops.toNat :=
    Nat.cast_le.mpr (UInt8.le_iff_toNat_le.mp hle)
  have hweighted : (hops.toNat : ℚ) * t ≤ hops.toNat :=
    mul_le_of_le_one_right (Nat.cast_nonneg _) ht
  exact weightedSum_le_one hα hph (by linarith)

/-- For a sum that is not negative, the clamp has only its upper bound to keep. -/
theorem clamp_iff {p : ℚ} {far : Prop} (hp : 0 ≤ p) :
    (0 ≤ p ∧ p ≤ 1 ∧ max 0 (min 1 p) = p ∧ (far → max 0 (min 1 p) ≠ 1)) ↔
      p ≤ 1 ∧ (far → p ≠ 1) := by
  constructor
  · rintro ⟨_, hle, hclamp, hfar⟩
    rw [hclamp] at hfar
    exact ⟨hle, hfar⟩
  · rintro ⟨hle, hfar⟩
    have hclamp : max 0 (min 1 p) = p := by rw [min_eq_right hle, max_eq_right hp]
    rw [hclamp]
    exact ⟨hp, hle, rfl, hfar⟩

end CaccCore

namespace RouterPipeline

variable {Name : Type} [DecidableEq Name]

/-- The PH that a packet is weighted with: the one remembered for its name if
the window of the name is full. -/
def weightedPh (p : RouterPipeline Name) (a : Arrival Name) : UInt8 :=
  if p.rateLimiter.WindowFull a.call then
    (p.rateLimiter.window a.contentName).lastPh
  else a.hdr.ph

/-- The clamp of equation (1) changes nothing for the packet, and a header that
claims more than `H_max` hops does not get the probability 1. -/
def NeedsNoClamp (P : Primitives Name) (s : RouterPipeline Name × Rng)
    (a : Arrival Name) : Prop :=
  let trust := s.1.reputation.getTrustScore a.prevHopId
  let p := s.1.caccCore.weightedSum ((s.1.rateVerdict a).effectivePh.toNat * trust)
    (a.hdr.rhc.toNat * trust + 1)
  let lastP := (process P s a).2.1.caccCore.lastP
  0 ≤ p ∧ p ≤ 1 ∧ lastP = p ∧ (s.1.caccCore.maxHops < a.hdr.rhc → lastP ≠ 1)

/-- The RHC is at most `H_max`, or exceeds it, weighted with the trust of the
previous hop, by less than the popularity term leaves room for. -/
def HopsInRange (p : RouterPipeline Name) (a : Arrival Name) : Prop :=
  let trust := p.reputation.getTrustScore a.prevHopId
  let alpha := p.caccCore.alpha
  let maxHops : ℚ := p.caccCore.maxHops.toNat
  a.hdr.rhc ≤ p.caccCore.maxHops ∨
    (1 - alpha) * (a.hdr.rhc.toNat * trust - maxHops) *
      ((p.weightedPh a).toNat * trust + 2) < alpha * (maxHops + 1)

variable {P : Primitives Name} {s : RouterPipeline Name × Rng} {a : Arrival Name}
  {p : RouterPipeline Name}

/-! ## Reachable states -/

/-- The initial trust is fixed, and `alpha` stays as the constructor clamped it. -/
theorem Reachable.parameters (h : Reachable P s) :
    s.1.reputation.initialTrust = 1 / 2 ∧
      0 ≤ s.1.caccCore.alpha ∧ s.1.caccCore.alpha ≤ 1 := by
  obtain ⟨nodeId, key, K, rate, alpha, hops, rng, hreach⟩ := h
  refine hreach.invariant (I := fun s => s.1.reputation.initialTrust = 1 / 2 ∧
    0 ≤ s.1.caccCore.alpha ∧ s.1.caccCore.alpha ≤ 1)
    ⟨rfl, CaccCore.alpha_new_mem alpha hops⟩ ?_
  intro s op hs _
  cases op with
  | process a =>
      simp only [RouterPipeline.perform, reputation_process,
        ReputationTable.initialTrust_update, alpha_process]
      exact hs
  | _ => exact hs

theorem Reachable.trust_mem (h : Reachable P s) (hop : UInt32) :
    0 ≤ s.1.reputation.getTrustScore hop ∧ s.1.reputation.getTrustScore hop < 1 := by
  rw [ReputationTable.getTrustScore_eq, h.parameters.1]
  cases hstored : s.1.reputation.stored hop with
  | none => norm_num
  | some x => exact h.reputation.2 hop x hstored

/-! ## The probability of a packet -/

theorem effectivePh_rateVerdict (p : RouterPipeline Name) (a : Arrival Name) :
    (p.rateVerdict a).effectivePh = p.weightedPh a := by
  have hclamped : (p.rateLimiter.call a.call).1.clamped = true ↔
      p.rateLimiter.WindowFull a.call := RateLimiter.clamped_iff
  rw [rateVerdict_eq, RateLimiter.effectivePh_call, weightedPh]
  simp only [hclamped]
  rfl

theorem lastP_process (hpass : s.1.passes P a = true) :
    (process P s a).2.1.caccCore.lastP = s.1.caccCore.probability
      ((s.1.rateVerdict a).effectivePh.toNat * s.1.reputation.getTrustScore a.prevHopId)
      (a.hdr.rhc.toNat * s.1.reputation.getTrustScore a.prevHopId + 1) := by
  rw [caccCore_process, if_pos hpass]
  rfl

/-- A packet is cached if it passes and its draw is not above its probability. -/
theorem decision_eq_cacheAndForward_iff :
    (process P s a).1.decision = .cacheAndForward ↔
      s.1.passes P a = true ∧ s.2.head ≤ s.1.caccCore.probability
        ((s.1.rateVerdict a).effectivePh.toNat * s.1.reputation.getTrustScore a.prevHopId)
        (a.hdr.rhc.toNat * s.1.reputation.getTrustScore a.prevHopId + 1) := by
  cases hpass : s.1.passes P a with
  | true =>
      obtain ⟨_, _, _, hcached⟩ := weighted_process hpass
      rw [hcached, lastP_process hpass]
      simp
  | false =>
      have hdropped := forwards_process (P := P) (s := s) (a := a)
      rw [hpass, ← Bool.not_eq_true, Outcome.forwards_iff, not_or] at hdropped
      simp [hdropped.2]

/-- One packet, with trust and `alpha` in the unit interval. -/
theorem needsNoClamp_iff
    (hα : 0 ≤ s.1.caccCore.alpha ∧ s.1.caccCore.alpha ≤ 1)
    (ht : 0 ≤ s.1.reputation.getTrustScore a.prevHopId ∧
      s.1.reputation.getTrustScore a.prevHopId < 1)
    (hpass : s.1.passes P a = true) : NeedsNoClamp P s a ↔ HopsInRange s.1 a := by
  have hph : 0 ≤ ((s.1.weightedPh a).toNat : ℚ) *
      s.1.reputation.getTrustScore a.prevHopId := mul_nonneg (Nat.cast_nonneg _) ht.1
  have hhops : 1 ≤ (a.hdr.rhc.toNat : ℚ) *
      s.1.reputation.getTrustScore a.prevHopId + 1 := by
    have hrhc := mul_nonneg (Nat.cast_nonneg (α := ℚ) a.hdr.rhc.toNat) ht.1
    linarith
  have hnonneg := (CaccCore.weightedSum_zero_one_nonneg hα).trans
    (CaccCore.weightedSum_zero_one_le_weightedSum hα hph hhops)
  simp only [NeedsNoClamp, HopsInRange, lastP_process hpass, effectivePh_rateVerdict,
    CaccCore.probability_eq_clamp, ← CaccCore.weightedSum_lt_one_iff hph,
    CaccCore.clamp_iff hnonneg]
  by_cases hrange : a.hdr.rhc ≤ s.1.caccCore.maxHops
  · have hle := CaccCore.weightedSum_le_one_of_le hα hph ht.2.le hrange
    exact iff_of_true ⟨hle, fun hlt => absurd hlt (UInt8.not_lt.mpr hrange)⟩
      (Or.inl hrange)
  · have hfar := UInt8.not_le.mp hrange
    simp only [hfar, hrange, true_implies, false_or, lt_iff_le_and_ne]

theorem Reachable.needsNoClamp_iff (h : Reachable P s) (hpass : s.1.passes P a = true) :
    NeedsNoClamp P s a ↔ HopsInRange s.1 a :=
  RouterPipeline.needsNoClamp_iff h.parameters.2 (h.trust_mem a.prevHopId) hpass

/-- **When equation (1) needs no clamp.** For every reachable state and every
packet that passes the checks, exactly when the RHC of the packet is in range;
and for every run, exactly when this is so for each of its packets that pass. -/
theorem needs_no_clamp_iff (P : Primitives Name) (s : RouterPipeline Name × Rng)
    (hs : Reachable P s) :
    (∀ a, s.1.passes P a = true → (NeedsNoClamp P s a ↔ HopsInRange s.1 a)) ∧
    ∀ xs : List (Op Name),
      (∀ e ∈ Machine.trace (perform P) s xs, ∀ a, e.inp = .process a →
        e.pre.1.passes P a = true → NeedsNoClamp P e.pre a) ↔
      ∀ e ∈ Machine.trace (perform P) s xs, ∀ a, e.inp = .process a →
        e.pre.1.passes P a = true → HopsInRange e.pre.1 a := by
  refine ⟨fun a hpass => hs.needsNoClamp_iff hpass, fun xs => ?_⟩
  apply forall₂_congr
  intro e he
  have hpre : Reachable P e.pre :=
    Machine.pre_of_mem_trace hs (fun _ op hr => hr.perform op) he
  exact forall₃_congr fun a _ hpass => hpre.needsNoClamp_iff hpass

/-- The digest of the message with RHC 255, under the key of the scripts. -/
def farPrimitives : Primitives (List UInt8) where
  toUri := id
  hmac := fun key msg =>
    if key = sampleKey ∧ msg = [0, 255, 1] ++ sampleName then some
      [177, 255, 228, 169, 240, 18, 222, 106, 184, 170, 210, 197, 71, 181, 185,
        40, 234, 160, 116, 245, 239, 60, 248, 6, 114, 79, 10, 168, 139, 251, 106,
        107]
    else none

def farHeader : CaccHeader := ⟨0, 255, 1, 0xB1FFE4A9⟩

/-- RHC 0 at a new router with `H_max` 10; and RHC 255 from a hop without trust, after a
packet with another tag. -/
theorem needs_no_clamp_iff_sample :
    NeedsNoClamp samplePrimitives (sampleRouter 1) (sampleArrival (sampleHeader 0 0 1)) ∧
      NeedsNoClamp farPrimitives
        (Machine.final (process farPrimitives) (sampleRouter 1)
          [sampleArrival { farHeader with hmac := 5 }])
        (sampleArrival farHeader) :=
  ⟨((needs_no_clamp_iff samplePrimitives (sampleRouter 1) (.new _ _ _ _ _ _ _)).1 _
      (by decide +kernel)).mpr (Or.inl (by decide)),
    ((needs_no_clamp_iff farPrimitives _
        ((Reachable.new _ _ _ _ _ _ _).final [sampleArrival { farHeader with hmac := 5 }])).1 _
      (by decide +kernel)).mpr (Or.inr (by decide +kernel))⟩

/-- **A large RHC forces caching.** A new router with `H_max` 10 accepts a header
that claims 255 hops, and caches with probability 1. -/
theorem far_header_forces_caching :
    ¬ ∀ s : RouterPipeline (List UInt8) × Rng, Reachable farPrimitives s →
      ∀ a, s.1.passes farPrimitives a = true → NeedsNoClamp farPrimitives s a := by
  intro hclaim
  have hforced := (hclaim (sampleRouter 1) (.new _ _ _ _ _ _ _) (sampleArrival farHeader)
    (by decide +kernel)).2.2.2 (by decide +kernel)
  exact hforced (by decide +kernel)

/-! ## Monotonicity -/

/-- More trust in the previous hop does not lower the probability. -/
theorem probability_le_of_trust_le {core : CaccCore} {t t' ph rhc : ℚ}
    (hα : 0 ≤ core.alpha ∧ core.alpha ≤ 1) (hph : 0 ≤ ph) (hrhc : 0 ≤ rhc)
    (ht : 0 ≤ t) (hle : t ≤ t') :
    core.probability (ph * t) (rhc * t + 1) ≤ core.probability (ph * t') (rhc * t' + 1) := by
  have hph' := mul_le_mul_of_nonneg_left hle hph
  have hrhc' := mul_le_mul_of_nonneg_left hle hrhc
  exact CaccCore.probability_le_probability hα (mul_nonneg hph ht) hph' (by linarith)

/-- **The caching probability is monotone and bounded.** For every `alpha` in
`[0, 1]` it grows with popularity and hop count; a packet that is cached is also
cached, with the same draw, by a router that trusts its previous hop more; and
in every reachable state the divisor is at least 2 and the probability between
`alpha / 2 + (1 - alpha) / (H_max + 1)` and 1. -/
theorem caching_monotone (P : Primitives Name) :
    (∀ alpha maxHops, 0 ≤ (CaccCore.new alpha maxHops).alpha ∧
      (CaccCore.new alpha maxHops).alpha ≤ 1) ∧
    (∀ (core : CaccCore) (ph ph' rhc rhc' : ℚ), 0 ≤ core.alpha ∧ core.alpha ≤ 1 →
      0 ≤ ph → ph ≤ ph' → rhc ≤ rhc' →
        core.probability ph rhc ≤ core.probability ph' rhc') ∧
    (∀ (s : RouterPipeline Name × Rng) (reputation : ReputationTable) (a : Arrival Name),
      0 ≤ s.1.caccCore.alpha ∧ s.1.caccCore.alpha ≤ 1 →
      0 ≤ s.1.reputation.getTrustScore a.prevHopId →
      s.1.reputation.getTrustScore a.prevHopId ≤ reputation.getTrustScore a.prevHopId →
      (process P s a).1.decision = .cacheAndForward →
        (process P ({ s.1 with reputation := reputation }, s.2) a).1.decision =
          .cacheAndForward) ∧
    ∀ (s : RouterPipeline Name × Rng) (a : Arrival Name), Reachable P s →
      s.1.passes P a = true →
      let phEff := (s.1.rateVerdict a).effectivePh.toNat *
        s.1.reputation.getTrustScore a.prevHopId
      let core := s.1.caccCore
      let lastP := (process P s a).2.1.caccCore.lastP
      2 ≤ phEff + 2 ∧
        core.alpha / 2 + (1 - core.alpha) / ((core.maxHops.toNat : ℚ) + 1) ≤ lastP ∧
        lastP ≤ 1 := by
  refine ⟨CaccCore.alpha_new_mem, ?_, ?_, ?_⟩
  · intro core ph ph' rhc rhc' hα hph hph' hrhc
    exact CaccCore.probability_le_probability hα hph hph' hrhc
  · intro s reputation a hα ht hle hcached
    rw [decision_eq_cacheAndForward_iff] at hcached ⊢
    refine ⟨hcached.1, hcached.2.trans ?_⟩
    exact probability_le_of_trust_le hα (Nat.cast_nonneg _) (Nat.cast_nonneg _) ht hle
  · intro s a hs hpass phEff core lastP
    have ht := (hs.trust_mem a.prevHopId).1
    have hph : 0 ≤ phEff := mul_nonneg (Nat.cast_nonneg _) ht
    have hhops : 1 ≤ (a.hdr.rhc.toNat : ℚ) *
        s.1.reputation.getTrustScore a.prevHopId + 1 := by
      have hrhc := mul_nonneg (Nat.cast_nonneg (α := ℚ) a.hdr.rhc.toNat) ht
      linarith
    have hbounds := CaccCore.probability_mem hs.parameters.2 hph hhops
    rw [← lastP_process hpass, CaccCore.weightedSum_zero_one] at hbounds
    exact ⟨by linarith, hbounds⟩

/-- A packet cached with the draw 0 at trust 1/2 is also cached at trust 9/10. -/
theorem caching_monotone_sample :
    let s : RouterPipeline (List UInt8) × Rng :=
      ((sampleRouter 1).1, Stream'.const 0)
    let a := sampleArrival (sampleHeader 0 0 1)
    let core := CaccCore.new (1 / 2) 10
    core.probability 1 2 ≤ core.probability 3 4 ∧
    (process samplePrimitives
      ({ s.1 with reputation := .new (9 / 10) (9 / 10) }, s.2) a).1.decision =
        .cacheAndForward ∧
    (process samplePrimitives s a).2.1.caccCore.lastP ≤ 1 := by
  intro s a core
  obtain ⟨-, hmono, htrust, hbounds⟩ := caching_monotone samplePrimitives
  refine ⟨?_, ?_, ?_⟩
  · exact hmono core 1 3 2 4 (by decide +kernel) (by decide) (by decide) (by decide)
  · exact htrust s (.new (9 / 10) (9 / 10)) a (by decide +kernel) (by decide +kernel)
      (by decide +kernel) (by decide +kernel)
  · exact (hbounds s a (.new _ _ _ _ _ _ _) (by decide +kernel)).2.2

end RouterPipeline
end CaccSecure
