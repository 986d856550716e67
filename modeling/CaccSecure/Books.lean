import CaccSecure.RouterPipeline
import Mathlib.Data.List.Basic

/-!
# The books of the pipeline

The counters of a router against the list of the outcomes since the last reset:
each counter is a tally of that list, in every run of `process` and
`resetStats`. The trust of a hop is booked as well, by one update for each of
its packets, after the packet was weighted.
-/

namespace CaccSecure

/-! ## The tallies -/

def Outcome.cached (o : Outcome) : Bool := o.decision = .cacheAndForward

def Outcome.tampered (o : Outcome) : Bool := o.decision = .dropTampering

def Outcome.replayed (o : Outcome) : Bool := o.decision = .dropReplay

/-- The packet was forwarded, and its PH was clamped. -/
def Outcome.rateLimited (o : Outcome) : Bool :=
  o.forwards && o.rate.any RateVerdict.clamped

/-- The counters that a list of outcomes should leave. -/
def PipelineStats.tally (os : List Outcome) : PipelineStats where
  totalPackets := .ofNat os.length
  forwarded := .ofNat (os.countP Outcome.forwards)
  cached := .ofNat (os.countP Outcome.cached)
  droppedTampering := .ofNat (os.countP Outcome.tampered)
  droppedReplay := .ofNat (os.countP Outcome.replayed)
  rateLimited := .ofNat (os.countP Outcome.rateLimited)

/-- The counters after one more outcome. -/
def PipelineStats.record (t : PipelineStats) (o : Outcome) : PipelineStats where
  totalPackets := t.totalPackets + 1
  forwarded := if o.forwards then t.forwarded + 1 else t.forwarded
  cached := if o.cached then t.cached + 1 else t.cached
  droppedTampering := if o.tampered then t.droppedTampering + 1 else t.droppedTampering
  droppedReplay := if o.replayed then t.droppedReplay + 1 else t.droppedReplay
  rateLimited := if o.rateLimited then t.rateLimited + 1 else t.rateLimited

theorem ofNat_countP_cons {α : Type*} (p : α → Bool) (o : α) (os : List α) :
    UInt64.ofNat ((o :: os).countP p) =
      if p o then .ofNat (os.countP p) + 1 else .ofNat (os.countP p) := by
  rw [List.countP_cons]
  split_ifs
  · exact UInt64.ofNat_add _ 1
  · rfl

/-- A count of fewer than `2 ^ 64` items is read back from its counter. -/
theorem toNat_ofNat_countP {α : Type*} {os : List α} (hlen : os.length < 2 ^ 64)
    (p : α → Bool) : (UInt64.ofNat (os.countP p)).toNat = os.countP p :=
  UInt64.toNat_ofNat_of_lt' (List.countP_le_length.trans_lt hlen)

theorem PipelineStats.tally_cons (o : Outcome) (os : List Outcome) :
    tally (o :: os) = (tally os).record o := by
  simp only [tally, record, ofNat_countP_cons]
  rw [List.length_cons, UInt64.ofNat_add]
  rfl

/-- Every packet is forwarded or dropped for one of two reasons. -/
theorem length_eq_countP_add {os : List Outcome}
    (hrate : ∀ o ∈ os, o.decision ≠ .dropRate) :
    os.length = os.countP Outcome.forwards + os.countP Outcome.tampered +
      os.countP Outcome.replayed := by
  induction os with
  | nil => rfl
  | cons o os ih =>
      obtain ⟨hhead, htail⟩ := List.forall_mem_cons.mp hrate
      have hone : (if o.forwards then 1 else 0) + (if o.tampered then 1 else 0) +
          (if o.replayed then 1 else 0) = 1 := by
        cases hd : o.decision with
        | dropRate => exact absurd hd hhead
        | _ => simp [Outcome.forwards, Outcome.tampered, Outcome.replayed, hd]
      rw [List.length_cons, ih htail, List.countP_cons, List.countP_cons, List.countP_cons]
      omega

theorem countP_cached_le (os : List Outcome) :
    os.countP Outcome.cached ≤ os.countP Outcome.forwards := by
  apply List.countP_mono_left
  intro o _ hcached
  rw [Outcome.cached, decide_eq_true_iff] at hcached
  exact Outcome.forwards_iff.mpr (Or.inr hcached)

theorem countP_rateLimited_le (os : List Outcome) :
    os.countP Outcome.rateLimited ≤ os.countP Outcome.forwards := by
  apply List.countP_mono_left
  intro o _ hlimited
  exact (Bool.and_eq_true_iff.mp hlimited).1

namespace RouterPipeline

variable {Name : Type} [DecidableEq Name] {P : Primitives Name}
  {s : RouterPipeline Name × Rng} {a : Arrival Name}

/-! ## One call -/

/-- Every path through `process` books its own outcome. -/
theorem stats_process : (process P s a).2.1.stats =
    s.1.stats.record (process P s a).1 := by
  obtain ⟨p, rng⟩ := s
  rcases checks_cases P p a with h | ⟨h, hs⟩ | ⟨h, hs⟩
  · rw [process_tampered h]
    rfl
  · rw [process_replayed h hs]
    rfl
  · rw [process_passed h hs]
    rcases p.rateVerdict a with ⟨clamped, effectivePh⟩
    cases (p.cacheDecision rng a).1 <;> cases clamped <;> rfl

theorem decision_ne_dropRate : (process P s a).1.decision ≠ .dropRate := by
  rw [decision_process]
  split_ifs <;> simp

/-- A packet that passes is weighted with the trust from before its update. -/
theorem weighted_process (hpass : s.1.passes P a = true) :
    ∃ v, (process P s a).1.rate = some v ∧
      (process P s a).2.1.caccCore.lastP = s.1.caccCore.probability
        (v.effectivePh.toNat * s.1.reputation.getTrustScore a.prevHopId)
        (a.hdr.rhc.toNat * s.1.reputation.getTrustScore a.prevHopId + 1) ∧
      ((process P s a).1.decision = .cacheAndForward ↔
        s.2.head ≤ (process P s a).2.1.caccCore.lastP) := by
  refine ⟨s.1.rateVerdict a, ?_, ?_, ?_⟩
  · rw [rate_process, if_pos hpass]
  · rw [caccCore_process, if_pos hpass]
    rfl
  · rw [caccCore_process, if_pos hpass, decision_process]
    have hmac := (passes_eq_true_iff.mp hpass).1
    simp only [hmac, hpass, Bool.true_eq_false, if_false]
    show _ ↔ s.2.head ≤ (s.1.cacheDecision s.2 a).2.1.lastP
    split_ifs with hcache
    · exact iff_of_true rfl (of_decide_eq_true hcache)
    · exact iff_of_false (by simp) (mt decide_eq_true hcache)

/-! ## Runs -/

/-- What drives a router: its packets, and the resets of its counters. -/
inductive Request (Name : Type) where
  | process (a : Arrival Name)
  | resetStats

/-- One request; only `process` has an outcome. -/
def serve (P : Primitives Name) (s : RouterPipeline Name × Rng) :
    Request Name → Option Outcome × (RouterPipeline Name × Rng)
  | .process a => (some (process P s a).1, (process P s a).2)
  | .resetStats => (none, s.1.resetStats, s.2)

/-- The outcomes since the last reset, newest first, after one more event. -/
def sinceReset (os : List Outcome)
    (e : Machine.Event (RouterPipeline Name × Rng) (Request Name) (Option Outcome)) :
    List Outcome :=
  match e.inp with
  | .process _ => e.out.toList ++ os
  | .resetStats => []

/-- The counters are the tallies of the outcomes, and none of these is
`dropRate`. -/
def Balanced (s : RouterPipeline Name × Rng) (os : List Outcome) : Prop :=
  s.1.stats = .tally os ∧ ∀ o ∈ os, o.decision ≠ .dropRate

theorem Balanced.serve {os : List Outcome} (h : Balanced s os) (x : Request Name) :
    Balanced (serve P s x).2
      (sinceReset os ⟨s, x, (RouterPipeline.serve P s x).1,
        (RouterPipeline.serve P s x).2⟩) := by
  cases x with
  | resetStats => exact ⟨rfl, by simp [sinceReset]⟩
  | process a =>
      refine ⟨?_, List.forall_mem_cons.mpr ⟨decision_ne_dropRate, h.2⟩⟩
      show (process P s a).2.1.stats = .tally ((process P s a).1 :: os)
      rw [stats_process, h.1, PipelineStats.tally_cons]

theorem Balanced.final {os : List Outcome} (h : Balanced s os) (xs : List (Request Name)) :
    Balanced (Machine.final (RouterPipeline.serve P) s xs)
      ((Machine.trace (RouterPipeline.serve P) s xs).foldl sinceReset os) :=
  Machine.final_foldl (R := fun (s : RouterPipeline Name × Rng) os => Balanced s os)
    xs h fun _ _ x h => h.serve x

/-- What the counters say while they do not wrap around. -/
theorem Balanced.counters {os : List Outcome} (h : Balanced s os)
    (hlen : os.length < 2 ^ 64) :
    s.1.stats.totalPackets.toNat = os.length ∧
    s.1.stats.forwarded.toNat = os.countP Outcome.forwards ∧
    s.1.stats.cached.toNat = os.countP Outcome.cached ∧
    s.1.stats.droppedTampering.toNat = os.countP Outcome.tampered ∧
    s.1.stats.droppedReplay.toNat = os.countP Outcome.replayed ∧
    s.1.stats.rateLimited.toNat = os.countP Outcome.rateLimited ∧
    s.1.stats.totalPackets.toNat = s.1.stats.forwarded.toNat +
      s.1.stats.droppedTampering.toNat + s.1.stats.droppedReplay.toNat ∧
    s.1.stats.cached.toNat ≤ s.1.stats.forwarded.toNat ∧
    s.1.stats.rateLimited.toNat ≤ s.1.stats.forwarded.toNat := by
  obtain ⟨hstats, hrate⟩ := h
  have htotal : (UInt64.ofNat os.length).toNat = os.length :=
    UInt64.toNat_ofNat_of_lt' hlen
  simp only [hstats, PipelineStats.tally, toNat_ofNat_countP hlen, htotal, true_and]
  exact ⟨length_eq_countP_add hrate, countP_cached_le os, countP_rateLimited_le os⟩

theorem decision_of_serve {x : Request Name} {o : Outcome}
    (ho : (serve P s x).1 = some o) : o.decision ≠ .dropRate := by
  cases x with
  | resetStats => cases ho
  | process a =>
      cases ho
      exact decision_ne_dropRate

/-- Only a packet from a hop changes the trust of that hop. -/
theorem hop_of_trust_ne {x : Request Name} {h : UInt32}
    (hne : (serve P s x).2.1.reputation.getTrustScore h ≠
      s.1.reputation.getTrustScore h) :
    ∃ a, x = .process a ∧ a.prevHopId = h := by
  cases x with
  | resetStats => exact absurd rfl hne
  | process a =>
      refine ⟨a, rfl, ?_⟩
      by_contra hhop
      apply hne
      show (process P s a).2.1.reputation.getTrustScore h = _
      rw [reputation_process]
      exact ReputationTable.getTrustScore_update_of_ne (Ne.symm hhop)

/-- **Balanced books.** For every new router and every run of `process` and
`resetStats`, as long as there were fewer than `2 ^ 64` packets since the last
reset: every counter is the tally of the outcomes since then, and the counters
add up. No outcome is `dropRate`. The trust of a hop changes only with a packet
from it, by one update for each, and the packet is weighted with the trust from
before. -/
theorem books_balance (P : Primitives Name) (nodeId : UInt32) (hmacKey : List UInt8)
    (maxTrackedEntries : ℕ) (maxRatePerWindow : UInt32) (alpha : ℚ) (maxHops : UInt8)
    (rng : Rng) (xs : List (Request Name)) :
    let router := (new nodeId hmacKey maxTrackedEntries maxRatePerWindow alpha maxHops, rng)
    let run := Machine.trace (serve P) router xs
    let stats := (Machine.final (serve P) router xs).1.stats
    let os := run.foldl sinceReset []
    (os.length < 2 ^ 64 →
      stats.totalPackets.toNat = os.length ∧
      stats.forwarded.toNat = os.countP Outcome.forwards ∧
      stats.cached.toNat = os.countP Outcome.cached ∧
      stats.droppedTampering.toNat = os.countP Outcome.tampered ∧
      stats.droppedReplay.toNat = os.countP Outcome.replayed ∧
      stats.rateLimited.toNat = os.countP Outcome.rateLimited ∧
      stats.totalPackets.toNat = stats.forwarded.toNat + stats.droppedTampering.toNat +
        stats.droppedReplay.toNat ∧
      stats.cached.toNat ≤ stats.forwarded.toNat ∧
      stats.rateLimited.toNat ≤ stats.forwarded.toNat) ∧
    ∀ e ∈ run,
      (∀ o, e.out = some o → o.decision ≠ .dropRate) ∧
      (∀ h, e.post.1.reputation.getTrustScore h ≠ e.pre.1.reputation.getTrustScore h →
        ∃ a, e.inp = .process a ∧ a.prevHopId = h) ∧
      ∀ a, e.inp = .process a →
        e.post.1.reputation =
          e.pre.1.reputation.update a.prevHopId (e.pre.1.passes P a) ∧
        (e.pre.1.passes P a = true → ∃ decision v, e.out = some ⟨decision, some v⟩ ∧
          e.post.1.caccCore.lastP = e.pre.1.caccCore.probability
            (v.effectivePh.toNat * e.pre.1.reputation.getTrustScore a.prevHopId)
            (a.hdr.rhc.toNat * e.pre.1.reputation.getTrustScore a.prevHopId + 1) ∧
          (decision = .cacheAndForward ↔ e.pre.2.head ≤ e.post.1.caccCore.lastP)) := by
  intro router run stats os
  constructor
  · have hnew : Balanced router [] := ⟨rfl, fun o ho => by cases ho⟩
    exact (hnew.final xs).counters
  · intro e he
    obtain ⟨pre, inp, out, post⟩ := e
    have hstep : serve P pre inp = (out, post) := Machine.step_of_mem_trace he
    obtain ⟨hout, hpost⟩ := Prod.mk.inj hstep
    subst hout hpost
    refine ⟨fun o ho => decision_of_serve ho, fun h hne => hop_of_trust_ne hne, ?_⟩
    rintro a ⟨⟩
    refine ⟨reputation_process, fun hpass => ?_⟩
    obtain ⟨v, hv, hp, hcache⟩ := weighted_process hpass
    exact ⟨(process P pre a).1.decision, v, by rw [← hv], hp, hcache⟩

/-- A packet before a reset, and its copy and another packet after it. -/
theorem books_balance_sample :
    let stats := (Machine.final (serve samplePrimitives) (sampleRouter 1)
      [.process (sampleArrival (sampleHeader 1 0 2)), .resetStats,
        .process (sampleArrival (sampleHeader 1 0 2)),
        .process (sampleArrival (sampleHeader 0 0 128))]).1.stats
    stats.totalPackets.toNat = 2 ∧ stats.rateLimited.toNat ≤ stats.forwarded.toNat := by
  obtain ⟨htotal, -, -, -, -, -, -, -, hlimited⟩ :=
    (books_balance samplePrimitives 1 sampleKey 10000 1 (1 / 2) 10 (Stream'.const 1)
      [.process (sampleArrival (sampleHeader 1 0 2)), .resetStats,
        .process (sampleArrival (sampleHeader 1 0 2)),
        .process (sampleArrival (sampleHeader 0 0 128))]).1 (by decide +kernel)
  exact ⟨htotal.trans (by decide +kernel), hlimited⟩

end RouterPipeline
end CaccSecure
