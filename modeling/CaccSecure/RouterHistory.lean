import CaccSecure.CachingProbability
import CaccSecure.SeqCacheHistory
import CaccSecure.TrustAverage
import Mathlib.Data.Stream.Init

/-!
# A router as a function of its history

What Algorithm 8 is for, without any of its tables: the answer to a packet is
read off the log of the packets before it and their outcomes. A SEQN is compared
with the last one accepted for a name that is still recent, a PH is clamped when
the last minute already has its share of unclamped packets, a hop is trusted by
the weighted share of its packets that passed, and the draw of a packet is the
one that its predecessors left. The router of the source, with its LRU cache,
its deques and its score table, refines that.
-/

namespace CaccSecure

/-- What a router is constructed with, and the draws that it will be given. -/
structure Setup where
  hmacKey : List UInt8
  maxTrackedEntries : ℕ
  maxRatePerWindow : UInt32
  alpha : ℚ
  maxHops : UInt8
  draws : Rng

/-- The packets so far and their outcomes, newest first. -/
abbrev Log (Name : Type) := List (Arrival Name × Outcome)

namespace Log

variable {Name : Type}

/-- The names and SEQNs of the packets that passed. -/
def accepted (H : Log Name) : List (Name × UInt8) :=
  (H.filter fun x => x.2.forwards).map fun x => (x.1.contentName, x.1.hdr.seqn)

/-- The packets that passed unclamped. -/
def unclamped (H : Log Name) : List (RateLimiter.Unclamped Name) :=
  (H.filter fun x => x.2.rate.any fun v => !v.clamped).map fun x =>
    ⟨x.1.contentName, nowMs x.1.clock, x.1.hdr.ph⟩

/-- Which packets of a hop passed, oldest first. -/
def conduct (hop : UInt32) (H : Log Name) : List Bool :=
  ((H.filter fun x => x.1.prevHopId = hop).map fun x => x.2.forwards).reverse

/-- The share of the hop's packets that passed, the recent ones weighing more. -/
def trust (hop : UInt32) (H : Log Name) : ℚ :=
  if conduct hop H = [] then 1 / 2
  else Ewma.weightedAverage (9 / 10) 0 ((conduct hop H).map ReputationTable.evidence)

variable [DecidableEq Name]

/-- The SEQN is not 1 to 128 ahead of the last one of a recent name. -/
def stale (K : ℕ) (H : Log Name) (n : Name) (seqn : UInt8) : Bool :=
  (SeqCache.latestSeqn K H.accepted n).any fun last =>
    (seqn.toNat + 256 - last.toNat) % 256 = 0 ∨ 128 < (seqn.toNat + 256 - last.toNat) % 256

/-- A packet is clamped when the minute up to it has its share of unclamped ones. -/
def verdict (limit : UInt32) (H : Log Name) (a : Arrival Name) : RateVerdict :=
  let full := limit.toNat ≤
    RateLimiter.countInWindow a.contentName 60000 (RateLimiter.reading a.call) H.unclamped
  ⟨full, if full then RateLimiter.latestPh a.contentName H.unclamped else a.hdr.ph⟩

/-- Equation (1), with `alpha` and the result in `[0, 1]`. -/
def probability (c : Setup) (phEff rhcEff : ℚ) : ℚ :=
  let alpha := max 0 (min 1 c.alpha)
  max 0 (min 1 (alpha * (1 - 1 / (phEff + 2)) +
    (1 - alpha) * (rhcEff / ((c.maxHops.toNat : ℚ) + 1))))

/-- The answer to a packet after the log. -/
def answer (P : Primitives Name) (c : Setup) (H : Log Name) (a : Arrival Name) : Outcome :=
  if a.hdr.hmac ≠
      SecurityEngine.computeHmac P ⟨c.hmacKey⟩ a.contentName a.hdr.ph a.hdr.rhc a.hdr.seqn then
    ⟨.dropTampering, none⟩
  else if H.stale c.maxTrackedEntries a.contentName a.hdr.seqn then ⟨.dropReplay, none⟩
  else
    let v := H.verdict c.maxRatePerWindow a
    let t := H.trust a.prevHopId
    let draw := c.draws.get (H.countP fun x => x.2.forwards)
    ⟨if draw ≤ probability c (v.effectivePh.toNat * t) (a.hdr.rhc.toNat * t + 1) then
        .cacheAndForward
      else .forwardOnly, some v⟩

/-- The router that keeps nothing but its log. -/
def respond (P : Primitives Name) (c : Setup) (H : Log Name) (a : Arrival Name) :
    Outcome × Log Name :=
  (H.answer P c a, (a, H.answer P c a) :: H)

end Log

namespace RouterPipeline

variable {Name : Type} [DecidableEq Name]

/-- The router holds what the log up to the time `now` says. -/
structure Represents (c : Setup) (now : ℕ) (s : RouterPipeline Name × Rng) (H : Log Name) :
    Prop where
  security : s.1.security = ⟨c.hmacKey⟩
  seqCache : SeqCache.Remembers c.maxTrackedEntries s.1.seqCache H.accepted
  rateLimiter : RateLimiter.Remembers c.maxRatePerWindow 60 now s.1.rateLimiter H.unclamped
  initialTrust : s.1.reputation.initialTrust = 1 / 2
  decayFactor : s.1.reputation.decayFactor = 9 / 10
  stored : ∀ hop, s.1.reputation.stored hop =
    if H.conduct hop = [] then none
    else some (Ewma.ewma (9 / 10) 0 ((H.conduct hop).map ReputationTable.evidence))
  alpha : s.1.caccCore.alpha = max 0 (min 1 c.alpha)
  maxHops : s.1.caccCore.maxHops = c.maxHops
  draws : s.2 = c.draws.drop (H.countP fun x => x.2.forwards)
  stats : s.1.stats = .tally (H.map Prod.snd)

variable {P : Primitives Name} {c : Setup} {now : ℕ} {s : RouterPipeline Name × Rng}
  {H : Log Name} {a : Arrival Name} {hop : UInt32} {o : Outcome}

/-! ## Logs grow at the front -/

omit [DecidableEq Name] in
theorem accepted_cons : Log.accepted ((a, o) :: H) =
    if o.forwards then (a.contentName, a.hdr.seqn) :: H.accepted else H.accepted := by
  cases ho : o.forwards <;> simp [Log.accepted, ho]

omit [DecidableEq Name] in
theorem unclamped_cons : Log.unclamped ((a, o) :: H) =
    if o.rate.any fun v => !v.clamped then
      ⟨a.contentName, nowMs a.clock, a.hdr.ph⟩ :: H.unclamped
    else H.unclamped := by
  cases ho : o.rate.any fun v => !v.clamped <;> simp [Log.unclamped, ho]

omit [DecidableEq Name] in
theorem conduct_cons_self : Log.conduct a.prevHopId ((a, o) :: H) =
    H.conduct a.prevHopId ++ [o.forwards] := by
  simp [Log.conduct]

omit [DecidableEq Name] in
theorem conduct_cons_of_ne (hne : a.prevHopId ≠ hop) :
    Log.conduct hop ((a, o) :: H) = H.conduct hop := by
  simp [Log.conduct, hne]

/-! ## The answer -/

theorem Represents.level (h : Represents c now s H) (hop : UInt32) :
    s.1.reputation.level hop =
      Ewma.ewma (9 / 10) 0 ((H.conduct hop).map ReputationTable.evidence) := by
  rw [ReputationTable.level, h.stored]
  split_ifs with hempty
  · rw [hempty]
    rfl
  · rfl

theorem Represents.trust (h : Represents c now s H) (hop : UInt32) :
    s.1.reputation.getTrustScore hop = H.trust hop := by
  rw [ReputationTable.getTrustScore_eq, h.stored, h.initialTrust, Log.trust,
    ← Ewma.ewma_eq_weightedAverage]
  split_ifs <;> rfl

theorem Represents.verdict (h : Represents c now s H)
    (hle : now ≤ RateLimiter.reading a.call) :
    s.1.rateVerdict a = H.verdict c.maxRatePerWindow a := by
  have hsixty : (60 : UInt32).toNat * 1000 = 60000 := rfl
  have hclamped : (s.1.rateVerdict a).clamped = true ↔ c.maxRatePerWindow.toNat ≤
      RateLimiter.countInWindow a.contentName 60000 (RateLimiter.reading a.call)
        H.unclamped := by
    have hiff := h.rateLimiter.clamped_iff hle
    rw [hsixty] at hiff
    exact hiff
  have hph := RateLimiter.effectivePh_call (r := s.1.rateLimiter) (x := a.call)
  rw [← rateVerdict_eq, h.rateLimiter.lastPh] at hph
  rcases hv : s.1.rateVerdict a with ⟨clamped, effectivePh⟩
  rw [hv] at hclamped hph
  have hclamped : clamped = true ↔ _ := hclamped
  have hph : effectivePh = if clamped then _ else _ := hph
  subst hph
  simp only [Log.verdict, ← hclamped, Bool.decide_eq_true]
  rfl

theorem Represents.verifyHmac (h : Represents c now s H) :
    s.1.verifyHmac P a.contentName a.hdr = true ↔
      a.hdr.hmac = SecurityEngine.computeHmac P ⟨c.hmacKey⟩ a.contentName a.hdr.ph
        a.hdr.rhc a.hdr.seqn := by
  rw [verifyHmac_eq_true_iff, h.security]

theorem Represents.fresh (h : Represents c now s H) :
    (s.1.seqCache.validateSequence a.contentName a.hdr.seqn).1 =
      !H.stale c.maxTrackedEntries a.contentName a.hdr.seqn := by
  have hrejects := h.seqCache.rejects_iff (n := a.contentName) (s := a.hdr.seqn)
  have hstale : H.stale c.maxTrackedEntries a.contentName a.hdr.seqn = true ↔
      (s.1.seqCache.validateSequence a.contentName a.hdr.seqn).1 = false := by
    rw [hrejects, Log.stale, SeqCache.latestSeqn]
    split_ifs with hmem
    · rw [Option.any_eq_true]
      simp [hmem]
    · simp [hmem]
  rw [Bool.eq_iff_iff, Bool.not_eq_true', ← Bool.not_eq_true (H.stale _ _ _), hstale,
    Bool.not_eq_false]

theorem Represents.probability (h : Represents c now s H) (x y : ℚ) :
    s.1.caccCore.probability x y = Log.probability c x y := by
  simp only [CaccCore.probability, h.alpha, h.maxHops]
  rfl

/-- **The answer is read off the log.** -/
theorem Represents.answer (h : Represents c now s H)
    (hle : now ≤ RateLimiter.reading a.call) : (process P s a).1 = H.answer P c a := by
  obtain ⟨p, rng⟩ := s
  have hhead : rng.head = c.draws.get (H.countP fun x => x.2.forwards) := by
    have hdraws : rng = _ := h.draws
    rw [hdraws]
    exact Stream'.head_drop _ _
  have hmac := h.verifyHmac (P := P) (a := a)
  have hfresh := h.fresh (a := a)
  rcases checks_cases P p a with hc | ⟨hc, hs⟩ | ⟨hc, hs⟩
  · rw [process_tampered hc, Log.answer, if_pos]
    rw [ne_eq, ← hmac, Bool.not_eq_true]
    exact hc
  · have htag := hmac.mp hc
    rw [hs] at hfresh
    rw [process_replayed hc hs, Log.answer, if_neg (by simpa using htag), if_pos]
    simpa using hfresh.symm
  · have htag := hmac.mp hc
    rw [hs] at hfresh
    have hanswer := Log.answer.eq_def P c H a
    rw [if_neg (by simpa using htag), if_neg (by simpa using hfresh.symm)] at hanswer
    rw [process_passed hc hs, hanswer]
    have hverdict : p.rateVerdict a = _ := h.verdict hle
    have htrust : p.reputation.getTrustScore a.prevHopId = _ := h.trust a.prevHopId
    have hprob : ∀ x y, p.caccCore.probability x y = _ := h.probability
    simp only [cacheDecision, CaccCore.decide, hverdict, htrust, hprob, hhead,
      decide_eq_true_eq]

/-! ## One packet -/

theorem Represents.stored_process (h : Represents c now s H) (hop : UInt32) :
    (process P s a).2.1.reputation.stored hop =
      if Log.conduct hop ((a, (process P s a).1) :: H) = [] then none
      else some (Ewma.ewma (9 / 10) 0 ((Log.conduct hop ((a, (process P s a).1) :: H)).map
        ReputationTable.evidence)) := by
  have hunit : (0 : ℚ) ≤ 9 / 10 ∧ (9 / 10 : ℚ) ≤ 1 := by norm_num
  by_cases hhop : a.prevHopId = hop
  · subst hhop
    have hevidence : ∀ b ∈ (H.conduct a.prevHopId).map ReputationTable.evidence,
        0 ≤ b ∧ b ≤ 1 := by
      intro b hb
      obtain ⟨consistent, -, rfl⟩ := List.mem_map.mp hb
      exact ReputationTable.evidence_mem consistent
    have hlevel := Ewma.ewma_mem_Icc hunit (by norm_num : (0 : ℚ) ≤ 0 ∧ (0 : ℚ) ≤ 1) hevidence
    rw [conduct_cons_self, if_neg (by simp), reputation_process,
      ReputationTable.stored_update_self, h.decayFactor, ← ReputationTable.level, h.level,
      ReputationTable.decayed_eq_step hunit hlevel, List.map_append, Ewma.ewma_append,
      forwards_process]
    rfl
  · rw [conduct_cons_of_ne hhop, reputation_process,
      ReputationTable.stored_update_of_ne (Ne.symm hhop), h.stored]

theorem Represents.seqCache_process (hK : 1 ≤ c.maxTrackedEntries)
    (h : Represents c now s H) :
    SeqCache.Remembers c.maxTrackedEntries (process P s a).2.1.seqCache
      (Log.accepted ((a, (process P s a).1) :: H)) := by
  rw [accepted_cons, forwards_process]
  cases hpass : s.1.passes P a with
  | true =>
      rw [seqCache_of_passes hpass]
      exact h.seqCache.accept hK (passes_eq_true_iff.mp hpass).2
  | false =>
      rw [seqCache_of_not_passes hpass]
      exact h.seqCache

theorem Represents.rateLimiter_process (h : Represents c now s H)
    (hle : now ≤ RateLimiter.reading a.call) :
    RateLimiter.Remembers c.maxRatePerWindow 60 (RateLimiter.reading a.call)
      (process P s a).2.1.rateLimiter
      (Log.unclamped ((a, (process P s a).1) :: H)) := by
  rw [unclamped_cons, rate_process, RouterPipeline.rateLimiter_process]
  cases hpass : s.1.passes P a with
  | true =>
      have hcall := h.rateLimiter.call hle
      rw [RateLimiter.recorded] at hcall
      simp only [if_true, Option.any_some, rateVerdict_eq]
      cases hclamped : (s.1.rateLimiter.call a.call).1.clamped with
      | true =>
          rw [hclamped, if_pos rfl] at hcall
          exact hcall
      | false =>
          rw [hclamped, if_neg Bool.false_ne_true] at hcall
          exact hcall
  | false =>
      exact { h.rateLimiter with tracks := fun n => (h.rateLimiter.tracks n).mono hle }

/-- **Step.** -/
theorem Represents.process (hK : 1 ≤ c.maxTrackedEntries) (h : Represents c now s H)
    (hle : now ≤ RateLimiter.reading a.call) :
    Represents c (RateLimiter.reading a.call) (process P s a).2
      ((a, (process P s a).1) :: H) where
  security := security_process.trans h.security
  seqCache := h.seqCache_process hK
  rateLimiter := h.rateLimiter_process hle
  initialTrust := by
    rw [reputation_process, ReputationTable.initialTrust_update, h.initialTrust]
  decayFactor := by
    rw [reputation_process, ReputationTable.decayFactor_update, h.decayFactor]
  stored := h.stored_process
  alpha := alpha_process.trans h.alpha
  maxHops := maxHops_process.trans h.maxHops
  draws := by
    rw [rng_process, h.draws, List.countP_cons, forwards_process]
    cases s.1.passes P a with
    | true => exact Stream'.tail_drop'
    | false => rfl
  stats := by
    rw [stats_process, h.stats, List.map_cons, PipelineStats.tally_cons]

/-! ## Runs -/

theorem represents_new (c : Setup) (nodeId : UInt32) (now : ℕ) :
    Represents c now ((.new nodeId c.hmacKey c.maxTrackedEntries c.maxRatePerWindow c.alpha
      c.maxHops : RouterPipeline Name), c.draws) [] where
  security := rfl
  seqCache := SeqCache.remembers_new _
  rateLimiter := RateLimiter.remembers_new _ _ _
  initialTrust := rfl
  decayFactor := rfl
  stored hop := by simp [Log.conduct, new, ReputationTable.new, ReputationTable.stored]
  alpha := by
    simp only [new, CaccCore.new]
    split_ifs with hout
    · rfl
    · rw [not_or, not_lt, not_lt] at hout
      rw [min_eq_right hout.2, max_eq_right hout.1]
  maxHops := rfl
  draws := rfl
  stats := rfl

/-- A run from a router that its log describes. -/
theorem Represents.run (hK : 1 ≤ c.maxTrackedEntries) (h : Represents c now s H)
    {xs : List (Arrival Name)}
    (hmono : (now :: xs.map fun a => RateLimiter.reading a.call).Pairwise (· ≤ ·)) :
    (Machine.trace (RouterPipeline.process P) s xs).map Machine.Event.out =
        (Machine.trace (Log.respond P c) H xs).map Machine.Event.out ∧
      ∃ now', Represents c now' (Machine.final (RouterPipeline.process P) s xs)
        (Machine.final (Log.respond P c) H xs) := by
  induction xs generalizing now s H with
  | nil => exact ⟨rfl, now, h⟩
  | cons a xs ih =>
      rw [List.map_cons] at hmono
      obtain ⟨hnow, hrest⟩ := List.pairwise_cons.mp hmono
      have hle : now ≤ RateLimiter.reading a.call := hnow _ List.mem_cons_self
      have hout : (RouterPipeline.process P s a).1 = H.answer P c a := h.answer hle
      have hpost := h.process (P := P) hK hle
      rw [hout] at hpost
      obtain ⟨houts, hend⟩ := ih hpost hrest
      refine ⟨?_, hend⟩
      rw [Machine.trace, Machine.trace, List.map_cons, List.map_cons, hout]
      exact congrArg _ houts

/-- **A router is a function of its history.** Over exact rationals, for every
construction with room for a name and every run in which the clock does not go back,
the outcomes are those of the router that keeps only its log, and at the end the trust
of every hop, the tracked names with their SEQNs, and the counters are those of the
log. -/
theorem refines_log (P : Primitives Name) (c : Setup) (hK : 1 ≤ c.maxTrackedEntries)
    (nodeId : UInt32) (xs : List (Arrival Name))
    (hmono : (xs.map fun a => RateLimiter.reading a.call).Pairwise (· ≤ ·)) :
    let router : RouterPipeline Name := .new nodeId c.hmacKey c.maxTrackedEntries
      c.maxRatePerWindow c.alpha c.maxHops
    let post := (Machine.final (process P) (router, c.draws) xs).1
    let H := Machine.final (Log.respond P c) [] xs
    (Machine.trace (process P) (router, c.draws) xs).map Machine.Event.out =
        (Machine.trace (Log.respond P c) [] xs).map Machine.Event.out ∧
      (∀ hop, post.reputation.getTrustScore hop = H.trust hop) ∧
      (∀ n, post.seqCache.lastSeqn n = SeqCache.latestSeqn c.maxTrackedEntries H.accepted n) ∧
      post.stats = .tally (H.map Prod.snd) := by
  intro router post H
  have hstart : (0 :: xs.map fun a => RateLimiter.reading a.call).Pairwise (· ≤ ·) :=
    List.pairwise_cons.mpr ⟨fun _ _ => Nat.zero_le _, hmono⟩
  obtain ⟨houts, now, hend⟩ := (represents_new c nodeId 0).run (P := P) hK hstart
  exact ⟨houts, hend.trust, hend.seqCache.lastSeqn, hend.stats⟩

def sampleSetup : Setup := ⟨sampleKey, 10000, 1, 1 / 2, 10, Stream'.const 1⟩

/-- A packet, its copy, and a packet that finds the window full. -/
def samplePackets : List (Arrival (List UInt8)) :=
  [sampleArrival (sampleHeader 1 0 2), sampleArrival (sampleHeader 1 0 2),
    sampleArrival (sampleHeader 0 0 128)]

theorem refines_log_sample :
    (Machine.trace (process samplePrimitives) (sampleRouter 1) samplePackets).map
        Machine.Event.out =
      (Machine.trace (Log.respond samplePrimitives sampleSetup) [] samplePackets).map
        Machine.Event.out :=
  (refines_log samplePrimitives sampleSetup (by decide) 1 samplePackets
    (by decide +kernel)).1

example : (Machine.trace (Log.respond samplePrimitives sampleSetup) [] samplePackets).map
    Machine.Event.out =
      [⟨.forwardOnly, some ⟨false, 1⟩⟩, ⟨.dropReplay, none⟩,
        ⟨.forwardOnly, some ⟨true, 1⟩⟩] := by
  decide +kernel

end RouterPipeline
end CaccSecure
