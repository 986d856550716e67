import CaccSecure.HonestTraffic

/-!
# What cache responses cost the producer

The producer numbers its headers from a counter of its own, a cache from the SEQN
that it has cached. Every response that a router accepts takes the number of a
header that the producer has not created yet, and that header is dropped when it
comes. As long as the caches are no more than half the SEQN space away from either
the router or the producer, the account is exact.
-/

namespace CaccSecure
namespace Contention

variable {Name : Type} [DecidableEq Name]

/-- The exchange, with the numbers of headers that the producer has created and has
lost, and of cache responses that the router has accepted. -/
structure State (Name : Type) [DecidableEq Name] where
  exchange : Honest.Exchange Name
  created : ℕ
  lost : ℕ
  served : ℕ

def init (key : List UInt8) (router : RouterPipeline Name) (rng : Rng) : State Name :=
  ⟨Honest.init key router rng, 0, 0, 0⟩

def step (P : Primitives Name) (n : Name) (s : State Name) (x : Honest.Action) :
    Outcome × State Name :=
  let r := Honest.step P n s.exchange x
  match x with
  | .create _ _ => (r.1, {
      exchange := r.2
      created := s.created + 1
      lost := if r.1.forwards then s.lost else s.lost + 1
      served := s.served })
  | .serve _ _ _ _ => (r.1, {
      exchange := r.2
      created := s.created
      lost := s.lost
      served := if r.1.forwards then s.served + 1 else s.served })

/-- Caches have the key, serve one of the last 129 headers that the router accepted,
and are fewer than 128 headers ahead of the producer. -/
def Allowed (key : List UInt8) (s : State Name) : Honest.Action → Prop
  | .create _ _ => True
  | .serve cache cached _ _ => cache.security = ⟨key⟩ ∧
      cached ∈ s.exchange.accepted.take 129 ∧
      s.exchange.accepted.length < s.created + 128

/-- The accepted SEQNs count up from 1, and the router is at most 128 headers ahead of
the producer, by one for each response that has not cost a header yet. -/
structure Inv (key : List UInt8) (n : Name) (s : State Name) : Prop where
  honest : Honest.Inv key n s.exchange
  counter : s.exchange.producer.currentSeqn n = UInt8.ofNat s.created
  numbered : ∀ i hdr, s.exchange.accepted[i]? = some hdr →
    hdr.seqn = UInt8.ofNat (s.exchange.accepted.length - i)
  behind : s.created ≤ s.exchange.accepted.length
  near : s.exchange.accepted.length ≤ s.created + 128
  account : s.lost + s.exchange.accepted.length = s.created + s.served

variable {P : Primitives Name} {key : List UInt8} {n : Name} {s : State Name}
  {x : Honest.Action} {hop : UInt32} {clock : Clock} {cache : CacheResponse}
  {cached : CaccHeader}

/-- Numbers up to 127 behind are stale. -/
theorem not_fresh_of_le {a b : ℕ} (hle : b ≤ a) (hnear : a < b + 128) :
    ¬ SeqCache.Fresh (UInt8.ofNat a) (UInt8.ofNat b) := by
  rw [SeqCache.Fresh, UInt8.toNat_ofNat', UInt8.toNat_ofNat', Circular.Newer, Circular.fwd]
  omega

theorem Allowed.honest (h : Allowed key s x) : Honest.Allowed key s.exchange x := by
  cases x with
  | create hop clock => trivial
  | serve cache cached hop clock => exact ⟨h.1, List.mem_of_mem_take h.2.1⟩

/-- A new header passes if its SEQN is fresh after the one accepted last. -/
theorem forwards_iff (h : Honest.Inv key n s.exchange)
    (hx : Honest.Allowed key s.exchange x) :
    (Honest.step P n s.exchange x).1.forwards = true ↔
      ∀ last, s.exchange.accepted.head? = some last →
        SeqCache.Fresh last.seqn (Honest.newSeqn n s.exchange x) := by
  obtain ⟨htamper, hreplay⟩ := h.decision (P := P) hx
  have hkeep : (Honest.step P n s.exchange x).1.forwards = true ↔
      (Honest.step P n s.exchange x).1.decision ≠ .dropReplay := by
    obtain ⟨s', a, heq, -⟩ := h.step_eq (P := P) hx
    rw [heq] at htamper ⊢
    exact RouterPipeline.forwards_iff_not_dropped.trans (and_iff_right htamper)
  rw [hkeep, ne_eq, hreplay]
  push Not
  rfl

/-- The header of a step, if it passes, is the last one accepted. -/
theorem accepted_step (h : Honest.Inv key n s.exchange)
    (hx : Honest.Allowed key s.exchange x) :
    ∃ hdr : CaccHeader, hdr.seqn = Honest.newSeqn n s.exchange x ∧
      (Honest.step P n s.exchange x).2.accepted =
        if (Honest.step P n s.exchange x).1.forwards then hdr :: s.exchange.accepted
        else s.exchange.accepted := by
  obtain ⟨s', a, heq, -, -, hacc, -, -, hseqn, -⟩ := h.step_eq (P := P) hx
  refine ⟨a.hdr, hseqn, ?_⟩
  rw [heq, ← hacc]
  rfl

theorem Inv.last (h : Inv key n s) {last : CaccHeader}
    (hlast : s.exchange.accepted.head? = some last) :
    last.seqn = UInt8.ofNat s.exchange.accepted.length := by
  rw [List.head?_eq_getElem?] at hlast
  exact h.numbered 0 last hlast

/-- **Created headers.** One is lost exactly while a response has not cost one yet. -/
theorem Inv.create_iff (h : Inv key n s) (hop : UInt32) (clock : Clock) :
    (Honest.step P n s.exchange (.create hop clock)).1.forwards = true ↔
      s.exchange.accepted.length = s.created := by
  have hbehind := h.behind
  have hnear := h.near
  have hseqn : Honest.newSeqn n s.exchange (.create hop clock) =
      UInt8.ofNat (s.created + 1) := by
    rw [Honest.newSeqn, h.counter, succ8_ofNat]
  have hallowed : Honest.Allowed key s.exchange (.create hop clock) := trivial
  rw [forwards_iff h.honest hallowed, hseqn]
  constructor
  · intro hfresh
    by_contra hne
    cases hhead : s.exchange.accepted.head? with
    | none =>
        rw [List.head?_eq_none_iff] at hhead
        rw [hhead, List.length_nil] at hne hbehind
        omega
    | some last =>
        have hstale := hfresh last hhead
        rw [h.last hhead] at hstale
        exact not_fresh_of_le (by omega) (by omega) hstale
  · intro heq last hlast
    rw [h.last hlast, heq, ← succ8_ofNat]
    exact fresh_succ8 _

/-- **Responses.** Exactly those from the header accepted last pass. -/
theorem Inv.serve_iff (h : Inv key n s) (hx : Allowed key s (.serve cache cached hop clock)) :
    (Honest.step P n s.exchange (.serve cache cached hop clock)).1.forwards = true ↔
      s.exchange.accepted.head? = some cached := by
  rw [forwards_iff h.honest hx.honest]
  have hseqn : Honest.newSeqn n s.exchange (.serve cache cached hop clock) =
      succ8 cached.seqn := rfl
  rw [hseqn]
  obtain ⟨i, hi⟩ := List.mem_iff_getElem?.mp hx.2.1
  rw [List.getElem?_take] at hi
  split_ifs at hi with hlt
  have hcached := h.numbered i cached hi
  have hlength : i < s.exchange.accepted.length := (List.getElem?_eq_some_iff.mp hi).1
  constructor
  · intro hfresh
    rw [List.head?_eq_getElem?]
    cases i with
    | zero => exact hi
    | succ i =>
        have hhead : s.exchange.accepted.head? = some (s.exchange.accepted[0]) := by
          rw [List.head?_eq_getElem?, List.getElem?_eq_getElem]
        have hstale := hfresh _ hhead
        rw [h.last hhead, hcached, succ8_ofNat] at hstale
        exact absurd hstale (not_fresh_of_le (by omega) (by omega))
  · intro hhead last hlast
    rw [hhead] at hlast
    rw [← Option.some.inj hlast]
    exact fresh_succ8 _

/-! ## Runs -/

theorem Inv.init (nodeId : UInt32) (K : ℕ) (rate : UInt32) (alpha : ℚ) (maxHops : UInt8)
    (rng : Rng) : Inv key n
      (init key (.new nodeId key K rate alpha maxHops) rng : State Name) where
  honest := Honest.Inv.init nodeId K rate alpha maxHops rng
  counter := Producer.currentSeqn_new n
  numbered _ _ hi := by cases hi
  behind := Nat.le_refl 0
  near := Nat.zero_le _
  account := rfl

omit [DecidableEq Name] in
theorem numbered_cons {accepted : List CaccHeader} {hdr : CaccHeader}
    (h : ∀ i x, accepted[i]? = some x → x.seqn = UInt8.ofNat (accepted.length - i))
    (hhdr : hdr.seqn = UInt8.ofNat (accepted.length + 1)) :
    ∀ i x, (hdr :: accepted)[i]? = some x →
      x.seqn = UInt8.ofNat ((hdr :: accepted).length - i) := by
  intro i x hi
  cases i with
  | zero =>
      rw [← Option.some.inj hi]
      exact hhdr
  | succ i =>
      rw [List.length_cons, Nat.add_sub_add_right]
      exact h i x hi

theorem Inv.create (h : Inv key n s) :
    Inv key n (step P n s (.create hop clock)).2 := by
  have hallowed : Honest.Allowed key s.exchange (.create hop clock) := trivial
  have hbehind := h.behind
  have hnear := h.near
  have haccount := h.account
  have hhonest := h.honest.step (P := P) hallowed
  have hcounter : (Honest.step P n s.exchange (.create hop clock)).2.producer.currentSeqn n =
      UInt8.ofNat (s.created + 1) := by
    show (s.exchange.producer.createHeader P n).2.currentSeqn n = _
    rw [Producer.currentSeqn_createHeader_self, h.counter, succ8_ofNat]
  obtain ⟨hdr, hseqn, hacc⟩ := accepted_step (P := P) h.honest hallowed
  have hiff := h.create_iff (P := P) hop clock
  cases hout : (Honest.step P n s.exchange (.create hop clock)).1.forwards with
  | true =>
      have heq := hiff.mp hout
      rw [hout, if_pos rfl] at hacc
      have hnew : hdr.seqn = UInt8.ofNat (s.exchange.accepted.length + 1) := by
        rw [hseqn, Honest.newSeqn, h.counter, succ8_ofNat, heq]
      simp only [step, hout, if_true]
      refine ⟨hhonest, hcounter, ?_, ?_, ?_, ?_⟩ <;> simp only [hacc]
      · exact numbered_cons h.numbered hnew
      all_goals
        rw [List.length_cons]
        omega
  | false =>
      have hne : s.exchange.accepted.length ≠ s.created := by
        intro heq
        rw [hiff.mpr heq] at hout
        cases hout
      rw [hout, if_neg Bool.false_ne_true] at hacc
      simp only [step, hout, Bool.false_eq_true, if_false]
      refine ⟨hhonest, hcounter, ?_, ?_, ?_, ?_⟩ <;> simp only [hacc]
      · exact h.numbered
      all_goals omega

theorem Inv.serve (h : Inv key n s) (hx : Allowed key s (.serve cache cached hop clock)) :
    Inv key n (step P n s (.serve cache cached hop clock)).2 := by
  have hbehind := h.behind
  have haccount := h.account
  have hroom : s.exchange.accepted.length < s.created + 128 := hx.2.2
  have hhonest := h.honest.step (P := P) hx.honest
  have hcounter : (Honest.step P n s.exchange
      (.serve cache cached hop clock)).2.producer.currentSeqn n = UInt8.ofNat s.created :=
    h.counter
  obtain ⟨hdr, hseqn, hacc⟩ := accepted_step (P := P) h.honest hx.honest
  cases hout : (Honest.step P n s.exchange (.serve cache cached hop clock)).1.forwards with
  | true =>
      have hhead := (h.serve_iff hx).mp hout
      rw [hout, if_pos rfl] at hacc
      have hnew : hdr.seqn = UInt8.ofNat (s.exchange.accepted.length + 1) := by
        rw [hseqn, Honest.newSeqn, h.last hhead, succ8_ofNat]
      simp only [step, hout, if_true]
      refine ⟨hhonest, hcounter, ?_, ?_, ?_, ?_⟩ <;> simp only [hacc]
      · exact numbered_cons h.numbered hnew
      all_goals
        rw [List.length_cons]
        omega
  | false =>
      rw [hout, if_neg Bool.false_ne_true] at hacc
      simp only [step, hout, Bool.false_eq_true, if_false]
      refine ⟨hhonest, hcounter, ?_, ?_, ?_, ?_⟩ <;> simp only [hacc]
      · exact h.numbered
      all_goals omega

/-- **What responses cost.** In every run of a producer and caches with the router's
key, with any router, as long as the caches serve one of the last 129 headers that the
router accepted and are fewer than 128 ahead of the producer: the accepted headers are
numbered 1, 2, 3 and so on, a response passes exactly if it is made from the header
accepted last, and a created header is dropped exactly if fewer created headers have
been dropped than responses have passed. So each response that passes costs the
producer one header, and nothing else does. -/
theorem response_costs_header (P : Primitives Name) (key : List UInt8) (n : Name)
    (nodeId : UInt32) (K : ℕ) (rate : UInt32) (alpha : ℚ) (maxHops : UInt8) (rng : Rng)
    (s : State Name) (hreach : Machine.Reach (step P n) (Allowed key)
      (init key (.new nodeId key K rate alpha maxHops) rng) s) :
    (∀ i hdr, s.exchange.accepted.reverse[i]? = some hdr →
      hdr.seqn = UInt8.ofNat (i + 1)) ∧
    (∀ cache cached hop clock, Allowed key s (.serve cache cached hop clock) →
      ((step P n s (.serve cache cached hop clock)).1.forwards = true ↔
        s.exchange.accepted.head? = some cached)) ∧
    (∀ hop clock, (step P n s (.create hop clock)).1.forwards = false ↔ s.lost < s.served) ∧
    s.lost ≤ s.served := by
  have h : Inv key n s := hreach.invariant (I := Inv key n)
    (.init nodeId K rate alpha maxHops rng) fun s x hs hx => by
      cases x with
      | create hop clock => exact hs.create
      | serve cache cached hop clock => exact hs.serve hx
  have hbehind := h.behind
  have haccount := h.account
  refine ⟨?_, ?_, ?_, by omega⟩
  · intro i hdr hi
    have hlt : i < s.exchange.accepted.length := by
      have := (List.getElem?_eq_some_iff.mp hi).1
      rwa [List.length_reverse] at this
    rw [List.getElem?_reverse hlt] at hi
    rw [h.numbered _ hdr hi]
    congr 1
    omega
  · intro cache cached hop clock hx
    exact h.serve_iff hx
  · intro hop clock
    have hiff := h.create_iff (P := P) hop clock
    rw [← Bool.not_eq_true]
    show ¬ (Honest.step P n s.exchange (.create hop clock)).1.forwards = true ↔ _
    rw [hiff]
    omega

/-- The producer has sent SEQN 1. -/
def sampleCreated : State (List UInt8) :=
  (step samplePrimitives sampleName
    (init sampleKey (sampleRouter 100).1 (sampleRouter 100).2)
    (.create 7 ⟨1000000000, 0⟩)).2

/-- A cache has answered with SEQN 2. -/
def sampleServed : State (List UInt8) :=
  (step samplePrimitives sampleName sampleCreated
    (.serve (.new sampleKey) (sampleHeader 0 0 1) 8 ⟨2000000000, 0⟩)).2

theorem reach_sampleServed :
    Machine.Reach (step samplePrimitives sampleName) (Allowed sampleKey)
      (init sampleKey (sampleRouter 100).1 (sampleRouter 100).2) sampleServed := by
  have hcreated : Machine.Reach (step samplePrimitives sampleName) (Allowed sampleKey)
      (init sampleKey (sampleRouter 100).1 (sampleRouter 100).2) sampleCreated :=
    .step .init trivial
  refine .step hcreated ⟨rfl, ?_, ?_⟩
  all_goals decide +kernel

/-- So the SEQN 2 of the producer is lost. -/
theorem response_costs_header_sample :
    (step samplePrimitives sampleName sampleServed (.create 7 ⟨3000000000, 0⟩)).1.forwards =
      false :=
  ((response_costs_header samplePrimitives sampleKey sampleName 1 10000 100 (1 / 2) 10
    (Stream'.const 1) sampleServed reach_sampleServed).2.2.1 7 _).mpr (by decide +kernel)

end Contention
end CaccSecure
