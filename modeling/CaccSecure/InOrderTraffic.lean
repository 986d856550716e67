import CaccSecure.Producer

/-!
# In-order producer traffic

A producer and a router that share a key. The headers of a name reach the
router in creation order, some are lost, and packets with a wrong tag arrive in
between. The SEQN stored for a tracked name is that of its last delivered
header, so that the circular distance of the next delivery is the number of
headers created since, for any number of rollovers.
-/

namespace CaccSecure
namespace InOrder

variable {Name : Type} [DecidableEq Name]

/-- The two parties, the headers created for each name, in order, and the index
of the last one delivered. -/
structure Network (Name : Type) [DecidableEq Name] where
  producer : Producer Name
  router : RouterPipeline Name × Rng
  created : Name → List CaccHeader
  delivered : Name → Option ℕ

inductive Action (Name : Type) where
  | create (contentName : Name)
  | deliver (contentName : Name) (i : ℕ) (prevHopId : UInt32) (clock : Clock)
  | forged (a : Arrival Name)

/-- The fresh parties. -/
def init (key : List UInt8) (router : RouterPipeline Name) (rng : Rng) :
    Network Name where
  producer := .new key
  router := (router, rng)
  created _ := []
  delivered _ := none

def step (P : Primitives Name) (s : Network Name) :
    Action Name → Option Outcome × Network Name
  | .create n =>
      let (hdr, producer) := s.producer.createHeader P n
      (none, { s with
        producer := producer
        created := Function.update s.created n (s.created n ++ [hdr]) })
  | .deliver n i prevHopId clock =>
      match (s.created n)[i]? with
      | none => (none, s)
      | some hdr =>
          let r := RouterPipeline.process P s.router ⟨n, hdr, prevHopId, clock⟩
          (some r.1, { s with
            router := r.2
            delivered := Function.update s.delivered n (some i) })
  | .forged a =>
      let r := RouterPipeline.process P s.router a
      (some r.1, { s with router := r.2 })

/-- What may happen: headers are delivered in creation order, with at most 127
lost between two deliveries, and forged packets carry a wrong tag. -/
def Allowed (P : Primitives Name) (s : Network Name) : Action Name → Prop
  | .create _ => True
  | .deliver n i _ _ => i < (s.created n).length ∧
      ∀ j, s.delivered n = some j → j < i ∧ i - j - 1 ≤ 127
  | .forged a => s.router.1.verifyHmac P a.contentName a.hdr = false

/-- The producer's counters, the headers it has issued, and the SEQNs that the
router has stored, in terms of the numbers of created and delivered headers. -/
structure Inv (P : Primitives Name) (key : List UInt8) (s : Network Name) : Prop where
  producer_key : s.producer.security = ⟨key⟩
  router_key : s.router.1.security = ⟨key⟩
  counter : ∀ n, s.producer.currentSeqn n = UInt8.ofNat (s.created n).length
  issued : ∀ n i hdr, (s.created n)[i]? = some hdr →
    hdr = issuedHeader P key n (UInt8.ofNat (i + 1))
  tracked : ∀ n last, s.router.1.seqCache.lastSeqn n = some last →
    ∃ j, s.delivered n = some j ∧ last = UInt8.ofNat (j + 1)

variable {P : Primitives Name} {key : List UInt8} {s : Network Name} {n : Name}
  {i j : ℕ} {hop : UInt32} {clock : Clock} {a : Arrival Name} {hdr : CaccHeader}

theorem Inv.init (nodeId : UInt32) (K : ℕ) (rate : UInt32) (alpha : ℚ)
    (maxHops : UInt8) (rng : Rng) :
    Inv P key (init key (.new nodeId key K rate alpha maxHops) rng : Network Name) where
  producer_key := rfl
  router_key := rfl
  counter n := Producer.currentSeqn_new n
  issued n i hdr h := by simp [InOrder.init] at h
  tracked n last h := by simp [InOrder.init, RouterPipeline.new] at h

theorem Inv.create (h : Inv P key s) (n : Name) :
    Inv P key (step P s (.create n)).2 where
  producer_key := h.producer_key
  router_key := h.router_key
  tracked := h.tracked
  counter := by
    intro m
    by_cases hm : m = n
    · subst hm
      show (s.producer.createHeader P m).2.currentSeqn m =
        UInt8.ofNat (Function.update s.created m _ m).length
      rw [Producer.currentSeqn_createHeader_self, h.counter, Function.update_self,
        List.length_append, List.length_singleton, succ8_ofNat]
    · show (s.producer.createHeader P n).2.currentSeqn m =
        UInt8.ofNat (Function.update s.created n _ m).length
      rw [Producer.currentSeqn_createHeader_of_ne hm, h.counter,
        Function.update_of_ne hm]
  issued := by
    intro m i hdr hi
    by_cases hm : m = n
    · subst hm
      have hi' : (s.created m ++ [(s.producer.createHeader P m).1])[i]? = some hdr := by
        simpa [step] using hi
      rcases Nat.lt_or_ge i (s.created m).length with hlt | hge
      · rw [List.getElem?_append_left hlt] at hi'
        exact h.issued m i hdr hi'
      · rw [List.getElem?_append_right hge] at hi'
        obtain ⟨hone, heq⟩ := List.getElem?_eq_some_iff.mp hi'
        have hlen : i = (s.created m).length := by
          rw [List.length_singleton] at hone
          omega
        rw [List.getElem_singleton, Producer.createHeader_fst h.producer_key,
          h.counter, succ8_ofNat] at heq
        rw [← heq, hlen]
    · have hi' : (s.created m)[i]? = some hdr := by
        simpa [step, Function.update_of_ne hm] using hi
      exact h.issued m i hdr hi'

theorem step_deliver (hi : (s.created n)[i]? = some hdr) :
    step P s (.deliver n i hop clock) =
      (some (RouterPipeline.process P s.router ⟨n, hdr, hop, clock⟩).1,
        { s with
          router := (RouterPipeline.process P s.router ⟨n, hdr, hop, clock⟩).2
          delivered := Function.update s.delivered n (some i) }) := by
  simp only [step, hi]

/-- The headers of a tracked name differ from the stored SEQN by the number of
headers created since the last delivery. -/
theorem Inv.fresh_iff (h : Inv P key s) (hi : (s.created n)[i]? = some hdr)
    (hj : s.delivered n = some j) (hlt : j < i) {last : UInt8}
    (hlast : s.router.1.seqCache.lastSeqn n = some last) :
    SeqCache.Fresh last hdr.seqn ↔ 1 ≤ (i - j) % 256 ∧ (i - j) % 256 ≤ 128 := by
  obtain ⟨j', hj', rfl⟩ := h.tracked n last hlast
  obtain rfl : j = j' := Option.some.inj (hj.symm.trans hj')
  rw [h.issued n i hdr hi]
  show SeqCache.Fresh (UInt8.ofNat (j + 1)) (UInt8.ofNat (i + 1)) ↔ _
  rw [SeqCache.fresh_ofNat (by omega), Nat.add_sub_add_right]

/-- An allowed delivery passes all checks. -/
theorem Inv.passes (h : Inv P key s) (hi : (s.created n)[i]? = some hdr)
    (hallowed : Allowed P s (.deliver n i hop clock)) :
    s.router.1.passes P ⟨n, hdr, hop, clock⟩ = true := by
  apply RouterPipeline.passes_of_authentic h.router_key
  · rw [h.issued n i hdr hi]
    exact authentic_issuedHeader _
  · intro last hlast
    obtain ⟨j, hj, -⟩ := h.tracked n last hlast
    obtain ⟨hlt, hgap⟩ := hallowed.2 j hj
    rw [h.fresh_iff hi hj hlt hlast]
    omega

theorem Inv.deliver (h : Inv P key s) (hi : (s.created n)[i]? = some hdr)
    (hallowed : Allowed P s (.deliver n i hop clock)) :
    Inv P key (step P s (.deliver n i hop clock)).2 := by
  have hpass := h.passes hi hallowed
  rw [step_deliver hi]
  refine { h with router_key := ?_, tracked := ?_ }
  · rw [RouterPipeline.security_process, h.router_key]
  · intro m last hlast
    by_cases hm : m = n
    · subst hm
      have hself := RouterPipeline.lastSeqn_process_self hpass
      rw [hself] at hlast
      refine ⟨i, Function.update_self .., ?_⟩
      rw [← Option.some.inj hlast, h.issued m i hdr hi]
      rfl
    · rcases RouterPipeline.lastSeqn_process (n := m) (s := s.router)
        (a := ⟨n, hdr, hop, clock⟩) (P := P) (fun hn => absurd hn.symm hm) with hsame | hnone
      · rw [hsame] at hlast
        show ∃ j, Function.update s.delivered n (some i) m = some j ∧ _
        rw [Function.update_of_ne hm]
        exact h.tracked m last hlast
      · rw [hnone] at hlast
        cases hlast

theorem Inv.forged (h : Inv P key s) (hallowed : Allowed P s (.forged a)) :
    Inv P key (step P s (.forged a)).2 := by
  have hdrop : s.router.1.passes P a = false := by
    rw [RouterPipeline.passes, show s.router.1.verifyHmac P a.contentName a.hdr = false
      from hallowed]
    rfl
  have hcache := RouterPipeline.seqCache_of_not_passes hdrop
  refine { h with router_key := ?_, tracked := ?_ }
  · exact RouterPipeline.security_process.trans h.router_key
  · intro m last hlast
    rw [show (step P s (.forged a)).2.router.1.seqCache = _ from hcache] at hlast
    exact h.tracked m last hlast

theorem Inv.step (h : Inv P key s) (x : Action Name) (hallowed : Allowed P s x) :
    Inv P key (step P s x).2 := by
  cases x with
  | create n => exact h.create n
  | forged a => exact h.forged hallowed
  | deliver n i hop clock =>
      exact h.deliver (List.getElem?_eq_getElem hallowed.1) hallowed

/-- **In-order traffic is never dropped, and 127 is exact.** In every reachable
state, an allowed delivery is forwarded or cached, and a delivery after 128 to
254 lost headers of a tracked name is dropped as a replay. -/
theorem inorder_never_dropped (P : Primitives Name) (key : List UInt8)
    (nodeId : UInt32) (K : ℕ) (rate : UInt32) (alpha : ℚ) (maxHops : UInt8)
    (rng : Rng) (s : Network Name)
    (hreach : Machine.Reach (step P) (Allowed P)
      (init key (.new nodeId key K rate alpha maxHops) rng) s) :
    (∀ n i hop clock, Allowed P s (.deliver n i hop clock) →
      ∃ o, (step P s (.deliver n i hop clock)).1 = some o ∧
        (o.decision = .forwardOnly ∨ o.decision = .cacheAndForward)) ∧
    (∀ n i j hop clock, i < (s.created n).length → s.delivered n = some j →
      j < i → 128 ≤ i - j - 1 → i - j - 1 ≤ 254 →
      s.router.1.seqCache.lastSeqn n ≠ none →
      ∃ o, (step P s (.deliver n i hop clock)).1 = some o ∧
        o.decision = .dropReplay) := by
  have h : Inv P key s := hreach.invariant (I := Inv P key)
    (Inv.init nodeId K rate alpha maxHops rng) fun _ x h hx => h.step x hx
  constructor
  · intro n i hop clock hallowed
    have hi := List.getElem?_eq_getElem hallowed.1
    have hpass := h.passes hi hallowed
    rw [← RouterPipeline.forwards_process] at hpass
    rw [step_deliver hi]
    exact ⟨_, rfl, by simpa [Outcome.forwards] using hpass⟩
  · intro n i j hop clock hlen hj hlt hlow hhigh htracked
    have hi := List.getElem?_eq_getElem hlen
    obtain ⟨last, hlast⟩ := Option.ne_none_iff_exists'.mp htracked
    rw [step_deliver hi]
    refine ⟨_, rfl, ?_⟩
    have hauth : Authentic P key n (s.created n)[i] := by
      rw [h.issued n i _ hi]
      exact authentic_issuedHeader _
    refine (RouterPipeline.decision_of_authentic h.router_key hauth).2.mpr
      ⟨last, hlast, ?_⟩
    rw [h.fresh_iff hi hj hlt hlast]
    omega

/-- 130 headers created, and the first of them delivered. -/
def sampleCreated : Network (List UInt8) :=
  Machine.final (step samplePrimitives)
    (init sampleKey (.new 1 sampleKey 100 100 (1 / 2) 10) (Stream'.const 1))
    (List.replicate 130 (.create sampleName))

def sampleDelivered : Network (List UInt8) :=
  (step samplePrimitives sampleCreated (.deliver sampleName 0 7 ⟨1000000000, 0⟩)).2

/-- With 127 headers lost after the first, the next one passes; with 128 lost, it is
dropped. -/
theorem inorder_never_dropped_sample :
    (∃ o, (step samplePrimitives sampleDelivered
        (.deliver sampleName 128 7 ⟨2000000000, 0⟩)).1 = some o ∧
      (o.decision = .forwardOnly ∨ o.decision = .cacheAndForward)) ∧
    ∃ o, (step samplePrimitives sampleDelivered
        (.deliver sampleName 129 7 ⟨2000000000, 0⟩)).1 = some o ∧
      o.decision = .dropReplay := by
  have hcreated : Machine.Reach (step samplePrimitives) (Allowed samplePrimitives)
      (init sampleKey (.new 1 sampleKey 100 100 (1 / 2) 10) (Stream'.const 1))
      sampleCreated := by
    refine Machine.Reach.init.final fun e he => ?_
    rw [List.eq_of_mem_replicate (Machine.inp_mem_of_mem_trace he)]
    trivial
  have hnone : sampleCreated.delivered sampleName = none := by decide +kernel
  have hfirst : Allowed samplePrimitives sampleCreated
      (.deliver sampleName 0 7 ⟨1000000000, 0⟩) := by
    refine ⟨by decide +kernel, fun j hj => ?_⟩
    rw [hnone] at hj
    cases hj
  have hzero : sampleDelivered.delivered sampleName = some 0 := by decide +kernel
  have hboth := inorder_never_dropped samplePrimitives sampleKey 1 100 100 (1 / 2) 10
    (Stream'.const 1) sampleDelivered (hcreated.step hfirst)
  constructor
  · refine hboth.1 sampleName 128 7 ⟨2000000000, 0⟩ ⟨by decide +kernel, fun j hj => ?_⟩
    rw [hzero] at hj
    cases hj
    decide
  · exact hboth.2 sampleName 129 0 7 ⟨2000000000, 0⟩ (by decide +kernel) hzero
      (by decide) (by decide) (by decide) (by decide +kernel)

end InOrder
end CaccSecure
