import CaccSecure.Producer

/-!
# Honest producers and caches

One content name, one producer and any number of caches, all with the router's
key. Every new header is delivered at once. Algorithms 6 and 7 number headers
from different counters, and the router compares the new SEQN with the one it
accepted last: repeated responses from one cached packet collide, and so does
a producer header after a cache response.
-/

namespace CaccSecure
namespace Honest

variable {Name : Type} [DecidableEq Name]

/-- The parties, and the headers that the router has accepted, newest first. -/
structure Exchange (Name : Type) [DecidableEq Name] where
  producer : Producer Name
  router : RouterPipeline Name × Rng
  accepted : List CaccHeader

/-- A new header is made by the producer or by a cache, and delivered. -/
inductive Action where
  | create (prevHopId : UInt32) (clock : Clock)
  | serve (cache : CacheResponse) (cached : CaccHeader) (prevHopId : UInt32)
      (clock : Clock)

def init (key : List UInt8) (router : RouterPipeline Name) (rng : Rng) :
    Exchange Name := ⟨.new key, (router, rng), []⟩

/-- The packet with a new header arrives at the router. -/
def deliver (P : Primitives Name) (s : Exchange Name) (a : Arrival Name) :
    Outcome × Exchange Name :=
  let r := RouterPipeline.process P s.router a
  (r.1, { s with
    router := r.2
    accepted := if r.1.forwards then a.hdr :: s.accepted else s.accepted })

def step (P : Primitives Name) (n : Name) (s : Exchange Name) :
    Action → Outcome × Exchange Name
  | .create hop clock =>
      let (hdr, producer) := s.producer.createHeader P n
      deliver P { s with producer := producer } ⟨n, hdr, hop, clock⟩
  | .serve cache cached hop clock =>
      deliver P s ⟨n, cache.updateHeader P n cached, hop, clock⟩

/-- Caches share the key and serve headers that the router accepted. -/
def Allowed (key : List UInt8) (s : Exchange Name) : Action → Prop
  | .create _ _ => True
  | .serve cache cached _ _ => cache.security = ⟨key⟩ ∧ cached ∈ s.accepted

/-- The SEQN of the header that an action makes. -/
def newSeqn (n : Name) (s : Exchange Name) : Action → UInt8
  | .create _ _ => succ8 (s.producer.currentSeqn n)
  | .serve _ cached _ _ => succ8 cached.seqn

def prevHopId : Action → UInt32
  | .create hop _ => hop
  | .serve _ _ hop _ => hop

/-- Caches serve the header accepted last, and the producer goes on only from
the SEQN accepted last. -/
def Disciplined (key : List UInt8) (n : Name) (s : Exchange Name) : Action → Prop
  | .create _ _ => ∀ hdr, s.accepted.head? = some hdr →
      hdr.seqn = s.producer.currentSeqn n
  | .serve cache cached _ _ =>
      cache.security = ⟨key⟩ ∧ s.accepted.head? = some cached

/-- The router remembers the SEQN that it accepted last. -/
structure Inv (key : List UInt8) (n : Name) (s : Exchange Name) : Prop where
  producer_key : s.producer.security = ⟨key⟩
  router_key : s.router.1.security = ⟨key⟩
  lastSeqn : s.router.1.seqCache.lastSeqn n = s.accepted.head?.map CaccHeader.seqn

variable {P : Primitives Name} {key : List UInt8} {n : Name} {s : Exchange Name}
  {x : Action} {a : Arrival Name}

theorem Disciplined.allowed (h : Disciplined key n s x) : Allowed key s x := by
  cases x with
  | create hop clock => trivial
  | serve cache cached hop clock => exact ⟨h.1, List.mem_of_mem_head? h.2⟩

theorem Inv.init (nodeId : UInt32) (K : ℕ) (rate : UInt32) (alpha : ℚ)
    (maxHops : UInt8) (rng : Rng) :
    Inv key n (init key (.new nodeId key K rate alpha maxHops) rng : Exchange Name) where
  producer_key := rfl
  router_key := rfl
  lastSeqn := by simp [Honest.init, RouterPipeline.new]

theorem Inv.deliver (h : Inv key n s) (ha : a.contentName = n) :
    Inv key n (deliver P s a).2 := by
  subst ha
  refine ⟨h.producer_key, RouterPipeline.security_process.trans h.router_key, ?_⟩
  have hout := RouterPipeline.forwards_process (P := P) (s := s.router) (a := a)
  simp only [Honest.deliver, hout]
  cases hpass : s.router.1.passes P a with
  | true => exact RouterPipeline.lastSeqn_process_self hpass
  | false =>
      rw [RouterPipeline.seqCache_of_not_passes hpass]
      exact h.lastSeqn

/-- What a delivery of an authentic header does. -/
theorem Inv.deliver_out (h : Inv key n s) (ha : a.contentName = n)
    (hauth : Authentic P key n a.hdr) :
    (Honest.deliver P s a).1.decision ≠ .dropTampering ∧
      ((Honest.deliver P s a).1.decision = .dropReplay ↔
        ∃ last, s.accepted.head? = some last ∧
          ¬ SeqCache.Fresh last.seqn a.hdr.seqn) := by
  subst ha
  have hdecision := RouterPipeline.decision_of_authentic h.router_key hauth
  rw [h.lastSeqn] at hdecision
  refine ⟨hdecision.1, hdecision.2.trans ?_⟩
  constructor
  · rintro ⟨last, hlast, hstale⟩
    obtain ⟨hdr, hhdr, rfl⟩ := Option.map_eq_some_iff.mp hlast
    exact ⟨hdr, hhdr, hstale⟩
  · rintro ⟨hdr, hhdr, hstale⟩
    exact ⟨hdr.seqn, by rw [hhdr]; rfl, hstale⟩

/-- A step delivers one authentic header with the new SEQN. -/
theorem Inv.step_eq (h : Inv key n s) (hx : Allowed key s x) :
    ∃ s' a, step P n s x = Honest.deliver P s' a ∧ Inv key n s' ∧
      s'.router = s.router ∧ s'.accepted = s.accepted ∧ a.contentName = n ∧
      Authentic P key n a.hdr ∧ a.hdr.seqn = newSeqn n s x ∧
      a.prevHopId = prevHopId x := by
  cases x with
  | create hop clock =>
      have hhdr := Producer.createHeader_fst (P := P) (n := n) h.producer_key
      refine ⟨{ s with producer := (s.producer.createHeader P n).2 },
        ⟨n, (s.producer.createHeader P n).1, hop, clock⟩, rfl,
        ⟨h.producer_key, h.router_key, h.lastSeqn⟩, rfl, rfl, rfl, ?_, ?_, rfl⟩
      · rw [hhdr]
        exact authentic_issuedHeader _
      · rw [hhdr]
        rfl
  | serve cache cached hop clock =>
      exact ⟨_, _, rfl, h, rfl, rfl, rfl, CacheResponse.authentic_updateHeader hx.1,
        rfl, rfl⟩

theorem Inv.step (h : Inv key n s) (hx : Allowed key s x) :
    Inv key n (step P n s x).2 := by
  obtain ⟨s', a, heq, h', -, -, ha, -⟩ := h.step_eq (P := P) hx
  rw [heq]
  exact h'.deliver ha

theorem Inv.reach (nodeId : UInt32) (K : ℕ) (rate : UInt32) (alpha : ℚ)
    (maxHops : UInt8) (rng : Rng) {allowed : Exchange Name → Action → Prop}
    (hallowed : ∀ s x, allowed s x → Allowed key s x)
    (hreach : Machine.Reach (Honest.step P n) allowed
      (Honest.init key (.new nodeId key K rate alpha maxHops) rng) s) : Inv key n s :=
  hreach.invariant (I := Inv key n) (Inv.init nodeId K rate alpha maxHops rng)
    fun s x h hx => h.step (hallowed s x hx)

/-- The verdict on a new header. -/
theorem Inv.decision (h : Inv key n s) (hx : Allowed key s x) :
    (Honest.step P n s x).1.decision ≠ .dropTampering ∧
      ((Honest.step P n s x).1.decision = .dropReplay ↔
        ∃ last, s.accepted.head? = some last ∧
          ¬ SeqCache.Fresh last.seqn (newSeqn n s x)) := by
  obtain ⟨s', a, heq, h', -, hacc, ha, hauth, hseqn, -⟩ := h.step_eq (P := P) hx
  rw [heq, ← hacc, ← hseqn]
  exact h'.deliver_out ha hauth

/-- The previous hop is reported as inconsistent when its header is dropped. -/
theorem Inv.reputation (h : Inv key n s) (hx : Allowed key s x) :
    (Honest.step P n s x).2.router.1.reputation =
      s.router.1.reputation.update (prevHopId x)
        (decide ((Honest.step P n s x).1.decision ≠ .dropReplay)) := by
  obtain ⟨htamper, -⟩ := h.decision (P := P) hx
  obtain ⟨s', a, heq, -, hrouter, -, -, -, -, hhop⟩ := h.step_eq (P := P) hx
  have hforwards := RouterPipeline.forwards_iff_not_dropped (P := P)
    (s := s'.router) (a := a)
  rw [heq] at htamper ⊢
  show (RouterPipeline.process P s'.router a).2.1.reputation = _
  rw [RouterPipeline.reputation_process, ← RouterPipeline.forwards_process,
    hrouter, hhop]
  congr 1
  rw [Bool.eq_iff_iff, ← hrouter, hforwards, decide_eq_true_eq]
  exact and_iff_right htamper

/-- In a disciplined step the new SEQN is the successor of the one accepted
last. -/
theorem Disciplined.newSeqn_eq (hx : Disciplined key n s x) {last : CaccHeader}
    (hlast : s.accepted.head? = some last) : newSeqn n s x = succ8 last.seqn := by
  cases x with
  | create hop clock => exact congrArg succ8 (hx last hlast).symm
  | serve cache cached hop clock =>
      rw [Option.some.inj (hlast.symm.trans hx.2)]
      rfl

theorem Inv.forwards (h : Inv key n s) (hx : Disciplined key n s x) :
    (Honest.step P n s x).1.forwards = true := by
  obtain ⟨htamper, hreplay⟩ := h.decision (P := P) hx.allowed
  have hkeep : (Honest.step P n s x).1.decision ≠ .dropReplay := by
    rw [ne_eq, hreplay]
    rintro ⟨last, hlast, hstale⟩
    rw [hx.newSeqn_eq hlast] at hstale
    exact hstale (fresh_succ8 _)
  obtain ⟨s', a, heq, -⟩ := h.step_eq (P := P) hx.allowed
  rw [heq] at htamper hkeep ⊢
  exact RouterPipeline.forwards_iff_not_dropped.mpr ⟨htamper, hkeep⟩

/-- **Exactly the stale SEQNs are dropped.** A new header is never taken for
tampered with. It is dropped as a replay, and its previous hop reported as
inconsistent, exactly when the new SEQN is not 1 to 128 ahead of the SEQN
accepted last; in disciplined runs this never happens. -/
theorem honest_dropped_iff (P : Primitives Name) (key : List UInt8) (n : Name)
    (nodeId : UInt32) (K : ℕ) (rate : UInt32) (alpha : ℚ) (maxHops : UInt8)
    (rng : Rng) :
    (∀ s x, Machine.Reach (step P n) (Allowed key)
        (init key (.new nodeId key K rate alpha maxHops) rng) s → Allowed key s x →
      (step P n s x).1.decision ≠ .dropTampering ∧
      ((step P n s x).1.decision = .dropReplay ↔
        ∃ last, s.accepted.head? = some last ∧
          (((newSeqn n s x).toNat + 256 - last.seqn.toNat) % 256 = 0 ∨
            128 < ((newSeqn n s x).toNat + 256 - last.seqn.toNat) % 256)) ∧
      (step P n s x).2.router.1.reputation =
        s.router.1.reputation.update (prevHopId x)
          (decide ((step P n s x).1.decision ≠ .dropReplay))) ∧
    (∀ s x, Machine.Reach (step P n) (Disciplined key n)
        (init key (.new nodeId key K rate alpha maxHops) rng) s →
      Disciplined key n s x →
      (step P n s x).1.decision = .forwardOnly ∨
        (step P n s x).1.decision = .cacheAndForward) := by
  constructor
  · intro s x hreach hx
    have h : Inv key n s := Inv.reach nodeId K rate alpha maxHops rng
      (fun _ _ hx => hx) hreach
    obtain ⟨htamper, hreplay⟩ := h.decision (P := P) hx
    refine ⟨htamper, ?_, h.reputation hx⟩
    rw [hreplay]
    refine exists_congr fun last => and_congr_right fun _ => ?_
    unfold SeqCache.Fresh Circular.Newer Circular.fwd
    omega
  · intro s x hreach hx
    have h : Inv key n s := Inv.reach nodeId K rate alpha maxHops rng
      (fun _ _ hx => hx.allowed) hreach
    exact Outcome.forwards_iff.mp (h.forwards hx)

/-- The exchange after the producer has issued its first header. -/
def sampleExchange : Exchange (List UInt8) :=
  (step samplePrimitives sampleName
    (init sampleKey (sampleRouter 100).1 (sampleRouter 100).2)
    (.create 7 ⟨1000000000, 0⟩)).2

theorem reach_sampleExchange :
    Machine.Reach (step samplePrimitives sampleName) (Allowed sampleKey)
      (init sampleKey (sampleRouter 100).1 (sampleRouter 100).2) sampleExchange :=
  .step .init trivial

theorem allowed_sampleServe : Allowed sampleKey sampleExchange
    (.serve (.new sampleKey) (sampleHeader 0 0 1) 7 ⟨2000000000, 0⟩) :=
  ⟨rfl, by decide +kernel⟩

theorem honest_dropped_iff_sample :
    (step samplePrimitives sampleName sampleExchange
      (.serve (.new sampleKey) (sampleHeader 0 0 1) 7 ⟨2000000000, 0⟩)).1.decision ≠
      .dropTampering :=
  ((honest_dropped_iff samplePrimitives sampleKey sampleName 1 10000 100
    (1 / 2) 10 (Stream'.const 1)).1 sampleExchange _ reach_sampleExchange allowed_sampleServe).1

/-- **Honest collision.** The producer issues SEQN 1, and two caches serve that
packet: the second response repeats SEQN 2 and is dropped as a replay. -/
theorem honest_collision :
    ¬ ∀ (P : Primitives (List UInt8)) (key : List UInt8) (n : List UInt8)
      (nodeId : UInt32) (K : ℕ) (rate : UInt32) (alpha : ℚ) (maxHops : UInt8)
      (rng : Rng) (s : Exchange (List UInt8)) (x : Action),
      Machine.Reach (step P n) (Allowed key)
        (init key (.new nodeId key K rate alpha maxHops) rng) s → Allowed key s x →
      (step P n s x).1.decision ≠ .dropReplay ∧
        (step P n s x).1.decision ≠ .dropTampering := by
  intro hclaim
  have hagain := (hclaim samplePrimitives sampleKey sampleName 1 10000 100 (1 / 2) 10
    (Stream'.const 1) _ (.serve (.new sampleKey) (sampleHeader 0 0 1) 8 ⟨3000000000, 0⟩)
    (.step reach_sampleExchange allowed_sampleServe) ⟨rfl, by decide +kernel⟩).1
  exact hagain (by decide +kernel)

end Honest
end CaccSecure
