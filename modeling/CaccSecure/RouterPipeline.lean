import CaccSecure.Lib.Machine
import CaccSecure.SecurityEngine
import CaccSecure.SeqCache
import CaccSecure.RateLimiter
import CaccSecure.Reputation
import CaccSecure.CaccCore
import Mathlib.Tactic.NormNum

/-!
# Algorithm 8: router-side processing

`process` runs a packet through the HMAC check, the anti-replay check, the rate
limiter, the reputation weighting and the caching decision. The environment of
a call, the clocks and the random draws, is part of its input. Besides the
decision, the model returns the locals `rateOk` and `effectivePh` of the source
for the packets that reach the rate limiter.

`checks_cases` and the three equations of `process` say once what a call can do;
everything else about the pipeline is derived from them.
-/

namespace CaccSecure

/-- The parsed 7-byte header. -/
structure CaccHeader where
  ph : UInt8
  rhc : UInt8
  seqn : UInt8
  hmac : UInt32
deriving DecidableEq

inductive PipelineDecision where
  | forwardOnly
  | cacheAndForward
  | dropTampering
  | dropReplay
  | dropRate
deriving DecidableEq

structure PipelineStats where
  totalPackets : UInt64
  forwarded : UInt64
  cached : UInt64
  droppedTampering : UInt64
  droppedReplay : UInt64
  rateLimited : UInt64
deriving DecidableEq

def PipelineStats.zero : PipelineStats := ⟨0, 0, 0, 0, 0, 0⟩

structure RouterPipeline (Name : Type) [DecidableEq Name] where
  nodeId : UInt32
  security : SecurityEngine
  seqCache : SeqCache Name
  rateLimiter : RateLimiter Name
  reputation : ReputationTable
  caccCore : CaccCore
  stats : PipelineStats

/-- A call of `process`: its arguments, and what the clocks show. -/
structure Arrival (Name : Type) where
  contentName : Name
  hdr : CaccHeader
  prevHopId : UInt32
  clock : Clock

/-- The decision, and the rate limiter's verdict on the packets it sees. -/
structure Outcome where
  decision : PipelineDecision
  rate : Option RateVerdict
deriving DecidableEq

/-- The packet was not dropped. -/
def Outcome.forwards (o : Outcome) : Bool :=
  o.decision = .forwardOnly ∨ o.decision = .cacheAndForward

theorem Outcome.forwards_iff {o : Outcome} : o.forwards = true ↔
    o.decision = .forwardOnly ∨ o.decision = .cacheAndForward := by
  simp [Outcome.forwards]

namespace RouterPipeline

variable {Name : Type} [DecidableEq Name]

/-- The constructor. -/
def new (nodeId : UInt32) (hmacKey : List UInt8) (maxTrackedEntries : ℕ)
    (maxRatePerWindow : UInt32) (alpha : ℚ) (maxHops : UInt8) :
    RouterPipeline Name where
  nodeId := nodeId
  security := ⟨hmacKey⟩
  seqCache := .new maxTrackedEntries
  rateLimiter := .new maxRatePerWindow 60
  reputation := .new (1 / 2) (9 / 10)
  caccCore := .new alpha maxHops
  stats := .zero

def verifyHmac (P : Primitives Name) (p : RouterPipeline Name)
    (contentName : Name) (hdr : CaccHeader) : Bool :=
  let computed := p.security.computeHmac P contentName hdr.ph hdr.rhc hdr.seqn
  if computed ≠ hdr.hmac then false else true

def verifyAntiReplay (p : RouterPipeline Name) (contentName : Name)
    (seqn : UInt8) : Bool × RouterPipeline Name :=
  let (ok, seqCache) := p.seqCache.validateSequence contentName seqn
  (ok, { p with seqCache := seqCache })

/-- `true` means not clamped; the PH is an in/out parameter. -/
def applyRateLimiter (p : RouterPipeline Name) (clock : Clock)
    (contentName : Name) (ph : UInt8) : Bool × UInt8 × RouterPipeline Name :=
  let (verdict, rateLimiter) := p.rateLimiter.checkAndUpdate clock contentName ph
  (!verdict.clamped, verdict.effectivePh, { p with rateLimiter := rateLimiter })

def applyReputation (p : RouterPipeline Name) (prevHopId : UInt32)
    (phEff rhcEff : ℚ) : ℚ × ℚ :=
  let trust := p.reputation.getTrustScore prevHopId
  (phEff * trust, rhcEff * trust)

def updateState (p : RouterPipeline Name) (prevHopId : UInt32)
    (consistent : Bool) : RouterPipeline Name :=
  { p with reputation := p.reputation.update prevHopId consistent }

/-- Apply a change to the counters. -/
def count (p : RouterPipeline Name) (f : PipelineStats → PipelineStats) :
    RouterPipeline Name :=
  { p with stats := f p.stats }

def resetStats (p : RouterPipeline Name) : RouterPipeline Name :=
  p.count fun _ => .zero

def process (P : Primitives Name) (s : RouterPipeline Name × Rng)
    (a : Arrival Name) : Outcome × (RouterPipeline Name × Rng) :=
  let (p, rng) := s
  let p := p.count fun t => { t with totalPackets := t.totalPackets + 1 }
  -- B.1
  if p.verifyHmac P a.contentName a.hdr = false then
    let p := p.count fun t => { t with droppedTampering := t.droppedTampering + 1 }
    (⟨.dropTampering, none⟩, p.updateState a.prevHopId false, rng)
  else
  -- B.2
  let (fresh, p) := p.verifyAntiReplay a.contentName a.hdr.seqn
  if fresh = false then
    let p := p.count fun t => { t with droppedReplay := t.droppedReplay + 1 }
    (⟨.dropReplay, none⟩, p.updateState a.prevHopId false, rng)
  else
  -- B.3 clamps and goes on
  let (rateOk, effectivePh, p) := p.applyRateLimiter a.clock a.contentName a.hdr.ph
  let p := p.count fun t =>
    if rateOk = false then { t with rateLimited := t.rateLimited + 1 } else t
  -- B.4
  let (phEff, rhcEff) := p.applyReputation a.prevHopId
    (effectivePh.toNat : ℚ) (a.hdr.rhc.toNat : ℚ)
  -- C
  let (shouldCache, caccCore, rng) := p.caccCore.decide rng phEff rhcEff
  let p := { p with caccCore := caccCore }
  -- D
  let p := p.updateState a.prevHopId true
  let rate := some ⟨!rateOk, effectivePh⟩
  if shouldCache then
    let p := p.count fun t =>
      { t with cached := t.cached + 1, forwarded := t.forwarded + 1 }
    (⟨.cacheAndForward, rate⟩, p, rng)
  else
    let p := p.count fun t => { t with forwarded := t.forwarded + 1 }
    (⟨.forwardOnly, rate⟩, p, rng)

/-! ## What a call can do -/

variable {P : Primitives Name} {p : RouterPipeline Name} {rng : Rng}
  {a : Arrival Name}

theorem verifyHmac_eq_true_iff {n : Name} {hdr : CaccHeader} :
    p.verifyHmac P n hdr = true ↔
      hdr.hmac = p.security.computeHmac P n hdr.ph hdr.rhc hdr.seqn := by
  simp [verifyHmac, eq_comm]

@[simp] theorem verifyHmac_count (f : PipelineStats → PipelineStats) (n : Name)
    (hdr : CaccHeader) : (p.count f).verifyHmac P n hdr = p.verifyHmac P n hdr :=
  rfl

theorem process_tampered (hmac : p.verifyHmac P a.contentName a.hdr = false) :
    process P (p, rng) a = (⟨.dropTampering, none⟩,
      { p with
        reputation := p.reputation.update a.prevHopId false
        stats := { p.stats with
          totalPackets := p.stats.totalPackets + 1
          droppedTampering := p.stats.droppedTampering + 1 } }, rng) :=
  if_pos hmac

theorem process_replayed (hmac : p.verifyHmac P a.contentName a.hdr = true)
    (hseq : (p.seqCache.validateSequence a.contentName a.hdr.seqn).1 = false) :
    process P (p, rng) a = (⟨.dropReplay, none⟩,
      { p with
        reputation := p.reputation.update a.prevHopId false
        stats := { p.stats with
          totalPackets := p.stats.totalPackets + 1
          droppedReplay := p.stats.droppedReplay + 1 } }, rng) := by
  have hcache := SeqCache.validateSequence_of_rejected hseq
  simp only [process, verifyHmac_count, hmac, Bool.true_eq_false, if_false,
    verifyAntiReplay]
  simp only [count, updateState, hseq, if_true, hcache]

/-- The rate limiter's verdict on a packet that reaches it. -/
def rateVerdict (p : RouterPipeline Name) (a : Arrival Name) : RateVerdict :=
  (p.rateLimiter.checkAndUpdate a.clock a.contentName a.hdr.ph).1

/-- The caching decision on a packet that reaches it. -/
def cacheDecision (p : RouterPipeline Name) (rng : Rng) (a : Arrival Name) :
    Bool × CaccCore × Rng :=
  let trust := p.reputation.getTrustScore a.prevHopId
  p.caccCore.decide rng ((p.rateVerdict a).effectivePh.toNat * trust)
    (a.hdr.rhc.toNat * trust)

theorem process_passed (hmac : p.verifyHmac P a.contentName a.hdr = true)
    (hseq : (p.seqCache.validateSequence a.contentName a.hdr.seqn).1 = true) :
    process P (p, rng) a =
      (⟨if (p.cacheDecision rng a).1 then .cacheAndForward else .forwardOnly,
        some (p.rateVerdict a)⟩,
      { p with
        seqCache := (p.seqCache.validateSequence a.contentName a.hdr.seqn).2
        rateLimiter :=
          (p.rateLimiter.checkAndUpdate a.clock a.contentName a.hdr.ph).2
        reputation := p.reputation.update a.prevHopId true
        caccCore := (p.cacheDecision rng a).2.1
        stats := { p.stats with
          totalPackets := p.stats.totalPackets + 1
          forwarded := p.stats.forwarded + 1
          cached := if (p.cacheDecision rng a).1 then p.stats.cached + 1
            else p.stats.cached
          rateLimited := if (p.rateVerdict a).clamped then p.stats.rateLimited + 1
            else p.stats.rateLimited } },
      (p.cacheDecision rng a).2.2) := by
  rcases hv : p.rateLimiter.checkAndUpdate a.clock a.contentName a.hdr.ph with
    ⟨⟨clamped, effectivePh⟩, limiter⟩
  have hverdict : p.rateVerdict a = ⟨clamped, effectivePh⟩ := congrArg Prod.fst hv
  rcases hd : p.cacheDecision rng a with ⟨shouldCache, core, rest⟩
  simp only [cacheDecision, hverdict] at hd
  simp only [process, verifyHmac_count, hmac, Bool.true_eq_false, if_false,
    verifyAntiReplay]
  simp only [count, hseq, Bool.true_eq_false, if_false, applyRateLimiter,
    applyReputation, updateState, hv, hd, hverdict]
  cases clamped <;> cases shouldCache <;> rfl

/-- The packet survives the HMAC check and the anti-replay check. -/
def passes (P : Primitives Name) (p : RouterPipeline Name) (a : Arrival Name) :
    Bool :=
  p.verifyHmac P a.contentName a.hdr &&
    (p.seqCache.validateSequence a.contentName a.hdr.seqn).1

/-- The three ways through the checks. -/
theorem checks_cases (P : Primitives Name) (p : RouterPipeline Name)
    (a : Arrival Name) :
    p.verifyHmac P a.contentName a.hdr = false ∨
    (p.verifyHmac P a.contentName a.hdr = true ∧
      (p.seqCache.validateSequence a.contentName a.hdr.seqn).1 = false) ∨
    (p.verifyHmac P a.contentName a.hdr = true ∧
      (p.seqCache.validateSequence a.contentName a.hdr.seqn).1 = true) := by
  cases p.verifyHmac P a.contentName a.hdr <;>
    cases (p.seqCache.validateSequence a.contentName a.hdr.seqn).1 <;> simp

variable {s : RouterPipeline Name × Rng}

theorem passes_eq_true_iff : p.passes P a = true ↔
    p.verifyHmac P a.contentName a.hdr = true ∧
      (p.seqCache.validateSequence a.contentName a.hdr.seqn).1 = true := by
  simp [passes]

/-- The decision of a call, from its checks. -/
theorem decision_process : (process P s a).1.decision =
    if s.1.verifyHmac P a.contentName a.hdr = false then .dropTampering
    else if s.1.passes P a = false then .dropReplay
    else if (s.1.cacheDecision s.2 a).1 then .cacheAndForward
    else .forwardOnly := by
  obtain ⟨p, rng⟩ := s
  rcases checks_cases P p a with h | ⟨h, hs⟩ | ⟨h, hs⟩
  · simp [process_tampered h, h]
  · simp [process_replayed h hs, h, hs, passes]
  · simp [process_passed h hs, h, hs, passes]

theorem forwards_process : (process P s a).1.forwards = s.1.passes P a := by
  obtain ⟨p, rng⟩ := s
  rcases checks_cases P p a with h | ⟨h, hs⟩ | ⟨h, hs⟩
  · simp [process_tampered h, h, passes, Outcome.forwards]
  · simp [process_replayed h hs, hs, passes, Outcome.forwards]
  · cases hd : (p.cacheDecision rng a).1 <;>
      simp [process_passed h hs, h, hs, hd, passes, Outcome.forwards]

/-- `process` has two ways to drop a packet. -/
theorem forwards_iff_not_dropped : (process P s a).1.forwards = true ↔
    (process P s a).1.decision ≠ .dropTampering ∧
      (process P s a).1.decision ≠ .dropReplay := by
  simp only [Outcome.forwards, decision_process]
  split_ifs <;> simp

theorem rate_process : (process P s a).1.rate =
    if s.1.passes P a then some (s.1.rateVerdict a) else none := by
  obtain ⟨p, rng⟩ := s
  rcases checks_cases P p a with h | ⟨h, hs⟩ | ⟨h, hs⟩
  · simp [process_tampered h, h, passes]
  · simp [process_replayed h hs, hs, passes]
  · simp [process_passed h hs, h, hs, passes]

/-- **Frame.** What a call writes, apart from the counters. -/
theorem process_snd (P : Primitives Name) (s : RouterPipeline Name × Rng)
    (a : Arrival Name) : (process P s a).2 =
      if s.1.passes P a then
        ({ s.1 with
          seqCache := (s.1.seqCache.validateSequence a.contentName a.hdr.seqn).2
          rateLimiter :=
            (s.1.rateLimiter.checkAndUpdate a.clock a.contentName a.hdr.ph).2
          reputation := s.1.reputation.update a.prevHopId true
          caccCore := (s.1.cacheDecision s.2 a).2.1
          stats := (process P s a).2.1.stats }, s.2.tail)
      else
        ({ s.1 with
          reputation := s.1.reputation.update a.prevHopId false
          stats := (process P s a).2.1.stats }, s.2) := by
  obtain ⟨p, rng⟩ := s
  rcases checks_cases P p a with h | ⟨h, hs⟩ | ⟨h, hs⟩
  · simp [process_tampered h, h, passes]
  · simp [process_replayed h hs, hs, passes]
  · simp [process_passed h hs, h, hs, passes, cacheDecision, CaccCore.decide]

@[simp] theorem security_process :
    (process P s a).2.1.security = s.1.security := by
  rw [process_snd]
  split_ifs <;> rfl

theorem seqCache_process : (process P s a).2.1.seqCache =
    if s.1.passes P a then
      (s.1.seqCache.validateSequence a.contentName a.hdr.seqn).2
    else s.1.seqCache := by
  rw [process_snd]
  split_ifs <;> rfl

theorem seqCache_of_passes (h : s.1.passes P a = true) :
    (process P s a).2.1.seqCache =
      (s.1.seqCache.validateSequence a.contentName a.hdr.seqn).2 := by
  rw [seqCache_process, if_pos h]

theorem seqCache_of_not_passes (h : s.1.passes P a = false) :
    (process P s a).2.1.seqCache = s.1.seqCache := by
  rw [seqCache_process, h]
  rfl

theorem rateLimiter_process : (process P s a).2.1.rateLimiter =
    if s.1.passes P a then
      (s.1.rateLimiter.checkAndUpdate a.clock a.contentName a.hdr.ph).2
    else s.1.rateLimiter := by
  rw [process_snd]
  split_ifs <;> rfl

/-- Every call updates the trust of its previous hop once, as consistent
exactly when the packet passed the checks. -/
theorem reputation_process : (process P s a).2.1.reputation =
    s.1.reputation.update a.prevHopId (s.1.passes P a) := by
  rw [process_snd]
  cases s.1.passes P a <;> rfl

theorem caccCore_process : (process P s a).2.1.caccCore =
    if s.1.passes P a then (s.1.cacheDecision s.2 a).2.1
    else s.1.caccCore := by
  rw [process_snd]
  split_ifs <;> rfl

/-- A packet that passes takes one random draw. -/
theorem rng_process : (process P s a).2.2 =
    if s.1.passes P a then s.2.tail else s.2 := by
  rw [process_snd]
  split_ifs <;> rfl

@[simp] theorem maxTrackedEntries_process :
    (process P s a).2.1.seqCache.maxTrackedEntries =
      s.1.seqCache.maxTrackedEntries := by
  rw [seqCache_process]
  split_ifs <;> simp

/-- The SEQN check of a passing packet, and what it stores. -/
theorem fresh_of_passes (h : p.passes P a = true) {last : UInt8}
    (hlast : p.seqCache.lastSeqn a.contentName = some last) :
    SeqCache.Fresh last a.hdr.seqn :=
  SeqCache.validateSequence_fst.mp (passes_eq_true_iff.mp h).2 last hlast

theorem lastSeqn_process_self (h : s.1.passes P a = true) :
    (process P s a).2.1.seqCache.lastSeqn a.contentName = some a.hdr.seqn := by
  rw [seqCache_of_passes h]
  exact SeqCache.lastSeqn_self (passes_eq_true_iff.mp h).2

/-- A packet that is dropped, or is for another name, leaves the SEQN of a name
alone or evicts that name. -/
theorem lastSeqn_process {n : Name}
    (h : a.contentName = n → s.1.passes P a = false) :
    (process P s a).2.1.seqCache.lastSeqn n = s.1.seqCache.lastSeqn n ∨
      (process P s a).2.1.seqCache.lastSeqn n = none := by
  rw [seqCache_process]
  split_ifs with hpass
  · apply SeqCache.lastSeqn_of_ne
    rintro rfl
    rw [h rfl] at hpass
    cases hpass
  · exact Or.inl rfl

/-- Only names of packets that pass come to be tracked. -/
theorem mem_names_process {m : Name}
    (hm : m ∈ (process P s a).2.1.seqCache.names) :
    m ∈ s.1.seqCache.names ∨ (m = a.contentName ∧ s.1.passes P a = true) := by
  cases hpass : s.1.passes P a with
  | false =>
      rw [seqCache_of_not_passes hpass] at hm
      exact Or.inl hm
  | true =>
      rw [seqCache_of_passes hpass,
        SeqCache.names_of_accepted (passes_eq_true_iff.mp hpass).2] at hm
      by_cases hne : m = a.contentName
      · exact Or.inr ⟨hne, rfl⟩
      · exact Or.inl (Recency.mem_of_mem_touch hne hm)

/-! ## Operations and reachable states -/

/-- What a caller can do to a pipeline: process packets, reset the counters, and
call the modules that the accessors hand out. -/
inductive Op (Name : Type) where
  | process (a : Arrival Name)
  | resetStats
  | clearSeqCache
  | validateSequence (contentName : Name) (incomingSeq : UInt8)
  | clearRateLimiter
  | checkAndUpdate (clock : Clock) (contentName : Name) (ph : UInt8)
  | updateReputation (neighborId : UInt32) (consistent : Bool)
  | decide (phEff rhcEff : ℚ)

/-- One operation; only `process` has an outcome. -/
def perform (P : Primitives Name) (s : RouterPipeline Name × Rng) :
    Op Name → Option Outcome × (RouterPipeline Name × Rng)
  | .process a => ((process P s a).1, (process P s a).2)
  | .resetStats => (none, s.1.resetStats, s.2)
  | .clearSeqCache => (none, { s.1 with seqCache := s.1.seqCache.clear }, s.2)
  | .validateSequence n seqn =>
      (none, { s.1 with seqCache := (s.1.seqCache.validateSequence n seqn).2 }, s.2)
  | .clearRateLimiter =>
      (none, { s.1 with rateLimiter := s.1.rateLimiter.clear }, s.2)
  | .checkAndUpdate clock n ph =>
      (none, { s.1 with
        rateLimiter := (s.1.rateLimiter.checkAndUpdate clock n ph).2 }, s.2)
  | .updateReputation h consistent =>
      (none, { s.1 with reputation := s.1.reputation.update h consistent }, s.2)
  | .decide phEff rhcEff =>
      let r := s.1.caccCore.decide s.2 phEff rhcEff
      (none, { s.1 with caccCore := r.2.1 }, r.2.2)

/-- The states of a pipeline from its construction on. -/
def Reachable (P : Primitives Name) (s : RouterPipeline Name × Rng) : Prop :=
  ∃ nodeId hmacKey maxTrackedEntries maxRatePerWindow alpha maxHops rng,
    Machine.Reach (perform P) (fun _ _ => True)
      (new nodeId hmacKey maxTrackedEntries maxRatePerWindow alpha maxHops, rng) s

theorem Reachable.perform (h : Reachable P s) (op : Op Name) :
    Reachable P (perform P s op).2 := by
  obtain ⟨nodeId, key, K, rate, alpha, hops, rng, hreach⟩ := h
  exact ⟨nodeId, key, K, rate, alpha, hops, rng, .step hreach trivial⟩

theorem Reachable.process (h : Reachable P s) (a : Arrival Name) :
    Reachable P (process P s a).2 := h.perform (.process a)

/-- The reputation parameters are fixed, and stored trust lies in `[0, 1)`. -/
theorem Reachable.reputation (h : Reachable P s) :
    s.1.reputation.decayFactor = 9 / 10 ∧ s.1.reputation.Bounded := by
  obtain ⟨nodeId, key, K, rate, alpha, hops, rng, hreach⟩ := h
  have hupdate : ∀ (t : ReputationTable) (hop : UInt32) (b : Bool),
      t.decayFactor = 9 / 10 ∧ t.Bounded →
        (t.update hop b).decayFactor = 9 / 10 ∧ (t.update hop b).Bounded := by
    rintro t hop b ⟨hd, ht⟩
    exact ⟨hd, ht.update (by rw [hd]; norm_num) (by rw [hd]; norm_num)⟩
  refine hreach.invariant (I := fun s => s.1.reputation.decayFactor = 9 / 10 ∧
    s.1.reputation.Bounded) ⟨rfl, ReputationTable.bounded_new _ _⟩ ?_
  intro s op hs _
  cases op with
  | process a =>
      simp only [RouterPipeline.perform, reputation_process]
      exact hupdate _ _ _ hs
  | updateReputation hop b => exact hupdate _ _ _ hs
  | _ => exact hs

theorem Reachable.new (nodeId : UInt32) (hmacKey : List UInt8)
    (maxTrackedEntries : ℕ) (maxRatePerWindow : UInt32) (alpha : ℚ)
    (maxHops : UInt8) (rng : Rng) :
    Reachable P ((.new nodeId hmacKey maxTrackedEntries maxRatePerWindow alpha
      maxHops : RouterPipeline Name), rng) :=
  ⟨nodeId, hmacKey, maxTrackedEntries, maxRatePerWindow, alpha, maxHops, rng, .init⟩

/-- Processing packets leads from reachable states to reachable states. -/
theorem Reachable.final (h : Reachable P s) (xs : List (Arrival Name)) :
    Reachable P (Machine.final (RouterPipeline.process P) s xs) :=
  Machine.final_of_events h fun e he hpre => by
    have hpost := hpre.process e.inp
    rwa [Machine.step_of_mem_trace he] at hpost

end RouterPipeline

/-! ## Sample runs -/

/-- A header with its tag under the sample key. -/
def sampleHeader (ph rhc seqn : UInt8) : CaccHeader :=
  ⟨ph, rhc, seqn,
    SecurityEngine.computeHmac samplePrimitives ⟨sampleKey⟩ sampleName ph rhc seqn⟩

/-- A packet for the sample name from hop 7, one second into the simulation. -/
def sampleArrival (hdr : CaccHeader) : Arrival (List UInt8) :=
  ⟨sampleName, hdr, 7, ⟨1000000000, 0⟩⟩

/-- A new router that limits every name to `maxRatePerWindow` packets. -/
def sampleRouter (maxRatePerWindow : UInt32) : RouterPipeline (List UInt8) × Rng :=
  (.new 1 sampleKey 10000 maxRatePerWindow (1 / 2) 10, Stream'.const 1)

end CaccSecure
