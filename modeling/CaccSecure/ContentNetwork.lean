import CaccSecure.CachingProbability
import CaccSecure.HonestChain
import CaccSecure.Network

/-!
# A network with content stores

A producer, routers that keep the packets they decide to cache and answer from
them, and an adversary that delivers whatever it likes to whichever router it likes.
The loop is closed: what a store answers is accepted, cached and answered from
again elsewhere. The adversary cannot make tags, so every header in the network
comes from the producer through a number of stores, and none of these ever counts
a hop.
-/

namespace CaccSecure

section Headers

variable {Name : Type} {P : Primitives Name} {key : List UInt8} {n n' : Name}
  {hdr hdr' : CaccHeader} {r : CacheResponse} {c k : ℕ}

/-- A tag that matches two messages makes them one packet, if the URIs differ. -/
theorem eq_of_buffer_eq (hinj : Function.Injective P.toUri) (h : Authentic P key n hdr)
    (h' : Authentic P key n' hdr')
    (hbuffer : SecurityEngine.buffer P n hdr.ph hdr.rhc hdr.seqn =
      SecurityEngine.buffer P n' hdr'.ph hdr'.rhc hdr'.seqn) : n = n' ∧ hdr = hdr' := by
  obtain ⟨rfl, hph, hrhc, hseqn⟩ := SecurityEngine.buffer_inj hinj hbuffer
  obtain ⟨ph, rhc, seqn, hmac⟩ := hdr
  obtain ⟨ph', rhc', seqn', hmac'⟩ := hdr'
  simp only at hph hrhc hseqn
  subst hph hrhc hseqn
  rw [Authentic] at h h'
  simp only [CaccHeader.mk.injEq, true_and]
  exact h.trans h'.symm

theorem updateHeader_honestHeader (hkey : r.security = ⟨key⟩) :
    r.updateHeader P n (honestHeader P key n c k) = honestHeader P key n c (k + 1) := by
  simp only [CacheResponse.updateHeader, honestHeader, hkey, succ8_ofNat]
  rfl

end Headers

namespace RouterPipeline

variable {Name : Type} [DecidableEq Name] {P : Primitives Name} {p : RouterPipeline Name}

/-- Reachable with any draws: what the other routers take from the generator does
not matter. -/
theorem reachable_of_draws (h : ∀ rng, Reachable P (p, rng)) (rng rng' : Rng)
    (a : Arrival Name) : Reachable P ((process P (p, rng) a).2.1, rng') := by
  rcases checks_cases P p a with hc | ⟨hc, hs⟩ | ⟨hc, hs⟩
  · have hprocess := (h rng').process a
    rw [process_tampered hc] at hprocess ⊢
    exact hprocess
  · have hprocess := (h rng').process a
    rw [process_replayed hc hs] at hprocess ⊢
    exact hprocess
  -- the draw that is taken is the same, and the given ones are left
  · have hprocess := (h (Stream'.cons rng.head rng')).process a
    rw [process_passed hc hs] at hprocess ⊢
    exact hprocess

end RouterPipeline

namespace ContentNetwork

variable {ι Name : Type} [DecidableEq ι] [DecidableEq Name]

/-- The parties; what each router has decided to cache and what it has accepted; all
headers made, and how many by the producer for each name and how many by the stores. -/
structure State (ι Name : Type) [DecidableEq Name] where
  producer : Producer Name
  fleet : Fleet ι Name
  caches : ι → CacheResponse
  store : ι → List (Name × CaccHeader)
  accepted : ι → List (Name × CaccHeader)
  sent : List (Name × CaccHeader)
  created : Name → ℕ
  responses : ℕ

inductive Action (ι Name : Type) where
  | create (contentName : Name)
  | respond (i : ι) (contentName : Name) (cached : CaccHeader)
  | inject (x : HookCall ι Name)

def init (key : List UInt8) (params : ι → Network.Parameters) (rng : Rng) : State ι Name where
  producer := .new key
  fleet := ⟨fun i => (params i).router key, rng⟩
  caches _ := .new key
  store _ := []
  accepted _ := []
  sent := []
  created _ := 0
  responses := 0

def step (P : Primitives Name) (s : State ι Name) :
    Action ι Name → Option Outcome × State ι Name
  | .create n =>
      let (hdr, producer) := s.producer.createHeader P n
      (none, { s with
        producer := producer
        sent := (n, hdr) :: s.sent
        created := Function.update s.created n (s.created n + 1) })
  | .respond i n cached =>
      (none, { s with
        sent := (n, (s.caches i).updateHeader P n cached) :: s.sent
        responses := s.responses + 1 })
  | .inject x =>
      let r := s.fleet.process P x.pipeline x.arrival
      let packet := (x.arrival.contentName, x.arrival.hdr)
      (some r.1, { s with
        fleet := r.2
        accepted :=
          if r.1.forwards then
            Function.update s.accepted x.pipeline (packet :: s.accepted x.pipeline)
          else s.accepted
        store :=
          if r.1.decision = .cacheAndForward then
            Function.update s.store x.pipeline (packet :: s.store x.pipeline)
          else s.store })

/-- Stores answer with what they have, and the adversary presents a matching tag
only for a message that the producer or a store has authenticated. -/
def Allowed (P : Primitives Name) (key : List UInt8) (s : State ι Name) :
    Action ι Name → Prop
  | .create _ => True
  | .respond i n cached => (n, cached) ∈ s.store i
  | .inject x => Authentic P key x.arrival.contentName x.arrival.hdr →
      ∃ y ∈ s.sent, SecurityEngine.buffer P y.1 y.2.ph y.2.rhc y.2.seqn =
        SecurityEngine.buffer P x.arrival.contentName x.arrival.hdr.ph x.arrival.hdr.rhc
          x.arrival.hdr.seqn

/-- The header comes from the producer through some of the stores. -/
def Provenance (P : Primitives Name) (key : List UInt8) (s : State ι Name)
    (y : Name × CaccHeader) : Prop :=
  ∃ c k, 1 ≤ c ∧ c ≤ s.created y.1 ∧ k ≤ s.responses ∧ y.2 = honestHeader P key y.1 c k

structure Inv (P : Primitives Name) (key : List UInt8) (s : State ι Name) : Prop where
  producer_key : s.producer.security = ⟨key⟩
  router_key : ∀ i, (s.fleet.pipelines i).security = ⟨key⟩
  cache_key : ∀ i, (s.caches i).security = ⟨key⟩
  counter : ∀ n, s.producer.currentSeqn n = UInt8.ofNat (s.created n)
  provenance : ∀ y ∈ s.sent, Provenance P key s y
  accepted_sent : ∀ i, ∀ y ∈ s.accepted i, y ∈ s.sent
  store_accepted : ∀ i, ∀ y ∈ s.store i, y ∈ s.accepted i
  reachable : ∀ i rng, RouterPipeline.Reachable P (s.fleet.pipelines i, rng)

variable {P : Primitives Name} {key : List UInt8} {params : ι → Network.Parameters}
  {s : State ι Name} {x : HookCall ι Name} {n : Name} {i : ι} {cached : CaccHeader}

omit [DecidableEq ι] in
/-- **Authenticity.** A packet that passes carries a header that was sent. -/
theorem Inv.mem_sent (h : Inv P key s) (hinj : Function.Injective P.toUri)
    (hallowed : Allowed P key s (.inject x))
    (hpass : (s.fleet.pipelines x.pipeline).passes P x.arrival = true) :
    (x.arrival.contentName, x.arrival.hdr) ∈ s.sent := by
  have hauth : Authentic P key x.arrival.contentName x.arrival.hdr :=
    (RouterPipeline.verifyHmac_iff_authentic (h.router_key x.pipeline)).mp
      (RouterPipeline.passes_eq_true_iff.mp hpass).1
  obtain ⟨⟨n, hdr⟩, hmem, hbuffer⟩ := hallowed hauth
  obtain ⟨c, k, -, -, -, hhdr⟩ := h.provenance _ hmem
  have hsent : Authentic P key n hdr := by
    rw [show hdr = _ from hhdr]
    exact authentic_honestHeader c k
  obtain ⟨rfl, rfl⟩ := eq_of_buffer_eq hinj hsent hauth hbuffer
  exact hmem

omit [DecidableEq ι] in
theorem Provenance.mono {s' : State ι Name} {y : Name × CaccHeader}
    (h : Provenance P key s y) (hcreated : ∀ n, s.created n ≤ s'.created n)
    (hresponses : s.responses ≤ s'.responses) : Provenance P key s' y := by
  rcases h with ⟨c, k, hpos, hc, hk, hhdr⟩
  exact ⟨c, k, hpos, hc.trans (hcreated _), hk.trans hresponses, hhdr⟩

/-! ## Steps -/

omit [DecidableEq ι] in
theorem Inv.init (key : List UInt8) (params : ι → Network.Parameters) (rng : Rng) :
    Inv P key (init key params rng : State ι Name) where
  producer_key := rfl
  router_key _ := rfl
  cache_key _ := rfl
  counter n := Producer.currentSeqn_new n
  provenance y hy := by cases hy
  accepted_sent i y hy := by cases hy
  store_accepted i y hy := by cases hy
  reachable i rng := .new _ _ _ _ _ _ _

theorem Inv.create (h : Inv P key s) : Inv P key (step P s (.create n)).2 := by
  have hle : ∀ m, s.created m ≤ Function.update s.created n (s.created n + 1) m := by
    intro m
    by_cases hm : m = n
    · subst hm
      rw [Function.update_self]
      exact Nat.le_succ _
    · rw [Function.update_of_ne hm]
  refine { h with counter := ?_, provenance := ?_, accepted_sent := ?_ }
  · exact Producer.currentSeqn_createHeader (P := P) h.counter n
  · intro y hy
    rcases List.mem_cons.mp hy with rfl | hy
    · refine ⟨s.created n + 1, 0, Nat.succ_pos _, ?_, Nat.zero_le _, ?_⟩
      · show s.created n + 1 ≤ Function.update s.created n (s.created n + 1) n
        rw [Function.update_self]
      · show (s.producer.createHeader P n).1 = _
        rw [Producer.createHeader_fst h.producer_key, h.counter, succ8_ofNat]
        rfl
    · exact (h.provenance y hy).mono hle (Nat.le_refl _)
  · exact fun i y hy => List.mem_cons_of_mem _ (h.accepted_sent i y hy)

theorem Inv.respond (h : Inv P key s) (hx : Allowed P key s (.respond i n cached)) :
    Inv P key (step P s (.respond i n cached)).2 := by
  refine { h with provenance := ?_, accepted_sent := ?_ }
  · intro y hy
    rcases List.mem_cons.mp hy with rfl | hy
    · have hmem := h.accepted_sent i _ (h.store_accepted i _ hx)
      rcases h.provenance _ hmem with ⟨c, k, hpos, hc, hk, hhdr⟩
      refine ⟨c, k + 1, hpos, hc, Nat.succ_le_succ hk, ?_⟩
      show (s.caches i).updateHeader P n cached = honestHeader P key n c (k + 1)
      rw [← updateHeader_honestHeader (h.cache_key i)]
      exact congrArg _ hhdr
    · exact (h.provenance y hy).mono (fun _ => Nat.le_refl _) (Nat.le_succ _)
  · exact fun i y hy => List.mem_cons_of_mem _ (h.accepted_sent i y hy)

omit [DecidableEq Name] in
/-- What a list of one router holds after a packet has been put in front of another's. -/
theorem mem_ite_update {α : Type} {f : ι → List α} {i j : ι} {y z : α} {q : Prop}
    [Decidable q] : y ∈ (if q then Function.update f j (z :: f j) else f) i ↔
      (q ∧ i = j ∧ y = z) ∨ y ∈ f i := by
  split_ifs with hq
  · by_cases hij : i = j
    · subst hij
      rw [Function.update_self, List.mem_cons]
      simp [hq]
    · rw [Function.update_of_ne hij]
      simp [hij]
  · simp [hq]

theorem Inv.inject (h : Inv P key s) (hinj : Function.Injective P.toUri)
    (hx : Allowed P key s (.inject x)) : Inv P key (step P s (.inject x)).2 := by
  refine { h with router_key := ?_, accepted_sent := ?_, store_accepted := ?_, reachable := ?_ }
  · intro i
    exact Fleet.security_process.trans (h.router_key i)
  · intro i y hy
    rcases mem_ite_update.mp hy with ⟨hforwards, -, rfl⟩ | hy
    · rw [Fleet.forwards_process] at hforwards
      exact h.mem_sent hinj hx hforwards
    · exact h.accepted_sent i y hy
  · intro i y hy
    apply mem_ite_update.mpr
    rcases mem_ite_update.mp hy with ⟨hcached, hi, rfl⟩ | hy
    · exact Or.inl ⟨Outcome.forwards_iff.mpr (Or.inr hcached), hi, rfl⟩
    · exact Or.inr (h.store_accepted i y hy)
  · intro i rng
    show RouterPipeline.Reachable P
      ((s.fleet.process P x.pipeline x.arrival).2.pipelines i, rng)
    rcases eq_or_ne i x.pipeline with rfl | hi
    · rw [Fleet.pipelines_process_self]
      exact RouterPipeline.reachable_of_draws (h.reachable x.pipeline) _ rng x.arrival
    · rw [Fleet.pipelines_process_of_ne hi]
      exact h.reachable i rng

theorem Inv.step (h : Inv P key s) (hinj : Function.Injective P.toUri) (x : Action ι Name)
    (hx : Allowed P key s x) : Inv P key (step P s x).2 := by
  cases x with
  | create n => exact h.create
  | respond i n cached => exact h.respond hx
  | inject x => exact h.inject hinj hx

/-! ## The probability of a packet in the network -/

/-- A packet that counts no hop leaves the locality term at one hop. -/
theorem lastP_of_rhc_zero {s : RouterPipeline Name × Rng} {a : Arrival Name}
    (hs : RouterPipeline.Reachable P s) (hpass : s.1.passes P a = true)
    (hrhc : a.hdr.rhc = 0) :
    let t := s.1.reputation.getTrustScore a.prevHopId
    let core := s.1.caccCore
    let lastP := (RouterPipeline.process P s a).2.1.caccCore.lastP
    lastP = core.alpha * (1 - 1 / ((s.1.weightedPh a).toNat * t + 2)) +
        (1 - core.alpha) / (core.maxHops.toNat + 1) ∧
      lastP ≤ core.alpha * (256 / 257) + (1 - core.alpha) / (core.maxHops.toNat + 1) := by
  intro t core lastP
  have hα := hs.parameters.2
  rcases hs.trust_mem a.prevHopId with ⟨ht, ht'⟩
  have hph : 0 ≤ ((s.1.weightedPh a).toNat : ℚ) := Nat.cast_nonneg _
  have hph' : ((s.1.weightedPh a).toNat : ℚ) ≤ 255 := by
    have hlt := (s.1.weightedPh a).toNat_lt
    exact_mod_cast (by omega : (s.1.weightedPh a).toNat ≤ 255)
  have heff : 0 ≤ ((s.1.weightedPh a).toNat : ℚ) * t := mul_nonneg hph ht
  have hone : ((a.hdr.rhc.toNat : ℚ) * t + 1) = 1 := by
    rw [hrhc]
    simp
  have hsum : core.weightedSum ((s.1.weightedPh a).toNat * t) 1 =
      core.alpha * (1 - 1 / ((s.1.weightedPh a).toNat * t + 2)) +
        (1 - core.alpha) / (core.maxHops.toNat + 1) := by
    rw [CaccCore.weightedSum]
    ring
  have hlastP : lastP = core.weightedSum ((s.1.weightedPh a).toNat * t) 1 := by
    have hhops : (0 : ℚ) ≤ core.maxHops.toNat := Nat.cast_nonneg _
    have hle := CaccCore.weightedSum_le_one hα heff (by linarith : (1 : ℚ) ≤ core.maxHops.toNat + 1)
    have hnonneg := (CaccCore.weightedSum_zero_one_nonneg hα).trans
      (CaccCore.weightedSum_zero_one_le_weightedSum hα heff le_rfl)
    have hprocess : lastP = _ := RouterPipeline.lastP_process hpass
    rw [hprocess, RouterPipeline.effectivePh_rateVerdict, hone, CaccCore.probability_eq_clamp,
      min_eq_right hle, max_eq_right hnonneg]
  rw [hlastP, hsum]
  refine ⟨rfl, add_le_add (mul_le_mul_of_nonneg_left ?_ hα.1) le_rfl⟩
  have hproduct : ((s.1.weightedPh a).toNat : ℚ) * t ≤ 255 :=
    (mul_le_of_le_one_right hph ht'.le).trans hph'
  have hshare : (1 : ℚ) / 257 ≤ 1 / ((s.1.weightedPh a).toNat * t + 2) :=
    one_div_le_one_div_of_le (by linarith) (by linarith)
  linarith

/-- **Where headers come from.** In every run of a producer, routers with content stores
and any parameters, and an adversary without the key, in any order: each header that a
router accepts is one that the producer created for that very name, passed through at
most as many stores as have answered. So no accepted packet counts a hop, and the
probability with which it is cached, over exact rationals and with the PH that the
limiter lets through, has the locality term of a single hop, however far the packet has
come. -/
theorem network_provenance (P : Primitives Name) (hinj : Function.Injective P.toUri)
    (key : List UInt8) (params : ι → Network.Parameters) (rng : Rng) (s : State ι Name)
    (hreach : Machine.Reach (step P) (Allowed P key) (init key params rng) s) :
    (∀ i, ∀ y ∈ s.accepted i, ∃ c k, 1 ≤ c ∧ c ≤ s.created y.1 ∧ k ≤ s.responses ∧
      y.2 = honestHeader P key y.1 c k) ∧
    ∀ x, Allowed P key s (.inject x) →
      (s.fleet.pipelines x.pipeline).passes P x.arrival = true →
      let pipeline := s.fleet.pipelines x.pipeline
      let t := pipeline.reputation.getTrustScore x.arrival.prevHopId
      let core := pipeline.caccCore
      let lastP :=
        ((step P s (.inject x)).2.fleet.pipelines x.pipeline).caccCore.lastP
      lastP = core.alpha * (1 - 1 / ((pipeline.weightedPh x.arrival).toNat * t + 2)) +
          (1 - core.alpha) / (core.maxHops.toNat + 1) ∧
        lastP ≤ core.alpha * (256 / 257) + (1 - core.alpha) / (core.maxHops.toNat + 1) := by
  have h : Inv P key s := hreach.invariant (I := Inv P key) (.init key params rng)
    fun _ x h hx => h.step hinj x hx
  refine ⟨fun i y hy => h.provenance y (h.accepted_sent i y hy), ?_⟩
  intro x hx hpass pipeline t core lastP
  rcases h.provenance _ (h.mem_sent hinj hx hpass) with ⟨c, k, -, -, -, hhdr⟩
  have hrhc : x.arrival.hdr.rhc = 0 := congrArg CaccHeader.rhc hhdr
  have hlastP : lastP = (RouterPipeline.process P (s.fleet.pipelines x.pipeline, s.fleet.rng)
      x.arrival).2.1.caccCore.lastP := by
    show ((s.fleet.process P x.pipeline x.arrival).2.pipelines x.pipeline).caccCore.lastP = _
    rw [Fleet.pipelines_process_self]
  rw [hlastP]
  exact lastP_of_rhc_zero (h.reachable x.pipeline s.fleet.rng) hpass hrhc

/-- Two routers that cache whatever passes, and the header that one of them has. -/
def sampleNetwork : State Bool (List UInt8) :=
  (step samplePrimitives
    (step samplePrimitives
      (init sampleKey (fun _ => ⟨1, 10000, 100, 1 / 2, 10⟩) (Stream'.const 0))
      (.create sampleName)).2
    (.inject ⟨true, sampleArrival (sampleHeader 0 0 1)⟩)).2

/-- The first router has answered with it. -/
def sampleAnswered : State Bool (List UInt8) :=
  (step samplePrimitives sampleNetwork
    (.respond true sampleName (sampleHeader 0 0 1))).2

theorem reach_sampleAnswered :
    Machine.Reach (step samplePrimitives) (Allowed samplePrimitives sampleKey)
      (init sampleKey (fun _ => ⟨1, 10000, 100, 1 / 2, 10⟩) (Stream'.const 0))
      sampleAnswered := by
  have hcreated : Machine.Reach (step samplePrimitives) (Allowed samplePrimitives sampleKey)
      (init sampleKey (fun _ => ⟨1, 10000, 100, 1 / 2, 10⟩) (Stream'.const 0))
      (step samplePrimitives
        (init sampleKey (fun _ : Bool => ⟨1, 10000, 100, 1 / 2, 10⟩) (Stream'.const 0))
        (.create sampleName)).2 := .step .init trivial
  have hcached : Machine.Reach (step samplePrimitives) (Allowed samplePrimitives sampleKey)
      (init sampleKey (fun _ => ⟨1, 10000, 100, 1 / 2, 10⟩) (Stream'.const 0))
      sampleNetwork :=
    .step hcreated fun _ => ⟨(sampleName, sampleHeader 0 0 1), by decide +kernel, rfl⟩
  refine .step hcached ?_
  show (sampleName, sampleHeader 0 0 1) ∈ sampleNetwork.store true
  decide +kernel

/-- The answer passes at the second router, with the PH 1 and the SEQN 2. -/
theorem network_provenance_sample :
    let x : HookCall Bool (List UInt8) := ⟨false, sampleArrival (sampleHeader 1 0 2)⟩
    let pipeline := sampleAnswered.fleet.pipelines false
    let lastP := ((step samplePrimitives sampleAnswered
      (.inject x)).2.fleet.pipelines false).caccCore.lastP
    lastP ≤ pipeline.caccCore.alpha * (256 / 257) +
      (1 - pipeline.caccCore.alpha) / (pipeline.caccCore.maxHops.toNat + 1) := by
  intro x pipeline lastP
  exact ((network_provenance samplePrimitives Function.injective_id sampleKey _ _
    sampleAnswered reach_sampleAnswered).2 x
      (fun _ => ⟨(sampleName, sampleHeader 1 0 2), by decide +kernel, rfl⟩)
      (by decide +kernel)).2

end ContentNetwork
end CaccSecure
