import CaccSecure.Producer

/-!
# A producer that restarts

`reset` takes the SEQN counters of a producer back to zero, but the routers still
hold the SEQNs from before. Where that is between 1 and 128, the new headers of the
name are backward jumps until they have caught up; everywhere else the first one
counts as fresh.
-/

namespace CaccSecure
namespace Restart

variable {Name : Type} [DecidableEq Name]

/-- The parties, and for each name the numbers of headers sent and of headers
dropped since the restart. -/
structure State (Name : Type) [DecidableEq Name] where
  producer : Producer Name
  router : RouterPipeline Name × Rng
  sent : Name → ℕ
  dropped : Name → ℕ

inductive Action (Name : Type) where
  | send (contentName : Name) (prevHopId : UInt32) (clock : Clock)
  | forged (a : Arrival Name)

/-- The producer has restarted, the router has not. -/
def init (producer : Producer Name) (router : RouterPipeline Name × Rng) : State Name :=
  ⟨producer.reset, router, fun _ => 0, fun _ => 0⟩

/-- A header is created and arrives at once, or a packet with a wrong tag arrives. -/
def step (P : Primitives Name) (s : State Name) : Action Name → Outcome × State Name
  | .send n prevHopId clock =>
      let (hdr, producer) := s.producer.createHeader P n
      let r := RouterPipeline.process P s.router ⟨n, hdr, prevHopId, clock⟩
      (r.1, {
        producer := producer
        router := r.2
        sent := Function.update s.sent n (s.sent n + 1)
        dropped :=
          if r.1.forwards then s.dropped
          else Function.update s.dropped n (s.dropped n + 1) })
  | .forged a =>
      let r := RouterPipeline.process P s.router a
      (r.1, { s with router := r.2 })

def Allowed (P : Primitives Name) (s : State Name) : Action Name → Prop
  | .send _ _ _ => True
  | .forged a => s.router.1.verifyHmac P a.contentName a.hdr = false

/-- How many headers catch up with the SEQN from before the restart. -/
def debt (old : Option UInt8) : ℕ :=
  match old with
  | none => 0
  | some c => if c.toNat ≤ 128 then c.toNat else 0

/-- Since the restart the router has accepted no header of the name, or the last
one sent, or it has forgotten the name. -/
def Tracks (old : Option UInt8) (sent dropped : ℕ) (last : Option UInt8) : Prop :=
  (last = old ∧ dropped = sent ∧ sent ≤ debt old) ∨
    (last = some (UInt8.ofNat sent) ∧ 1 ≤ sent) ∨ last = none

structure Inv (key : List UInt8) (old : Name → Option UInt8) (s : State Name) : Prop where
  producer_key : s.producer.security = ⟨key⟩
  router_key : s.router.1.security = ⟨key⟩
  counter : ∀ n, s.producer.currentSeqn n = UInt8.ofNat (s.sent n)
  tracks : ∀ n, Tracks (old n) (s.sent n) (s.dropped n) (s.router.1.seqCache.lastSeqn n)
  dropped_le : ∀ n, s.dropped n ≤ debt (old n)

variable {P : Primitives Name} {key : List UInt8} {old : Name → Option UInt8}
  {s : State Name} {n : Name} {hop : UInt32} {clock : Clock} {a : Arrival Name}

/-- The first header after a restart is a backward jump if there is a debt, and the
others until it is paid. -/
theorem fresh_of_debt {c : UInt8} {k : ℕ} (hk : k ≤ debt (some c)) :
    SeqCache.Fresh c (UInt8.ofNat (k + 1)) ↔ k = debt (some c) := by
  have hlt := c.toNat_lt
  simp only [debt] at hk ⊢
  rw [SeqCache.Fresh, UInt8.toNat_ofNat', Circular.Newer, Circular.fwd]
  split_ifs at hk ⊢ <;> omega

/-- The header that is sent next. -/
theorem Inv.header (h : Inv key old s) (n : Name) :
    (s.producer.createHeader P n).1 = issuedHeader P key n (UInt8.ofNat (s.sent n + 1)) := by
  rw [Producer.createHeader_fst h.producer_key, h.counter, succ8_ofNat]

omit [DecidableEq Name] in
/-- A SEQN that came after the restart settles the debt. -/
theorem debt_le_sent {k : ℕ} (h : old n = some (UInt8.ofNat k)) : debt (old n) ≤ k := by
  have hle : (UInt8.ofNat k).toNat ≤ k := by
    rw [UInt8.toNat_ofNat']
    exact Nat.mod_le _ _
  rw [h, debt]
  split_ifs
  · exact hle
  · exact Nat.zero_le _

/-- A header is dropped as long as the router still holds the SEQN from before and
the new ones have not caught up with it. -/
theorem Inv.dropped_iff (h : Inv key old s) :
    s.router.1.passes P ⟨n, (s.producer.createHeader P n).1, hop, clock⟩ = false ↔
      s.router.1.seqCache.lastSeqn n = old n ∧ s.sent n < debt (old n) := by
  have hpasses : s.router.1.passes P ⟨n, (s.producer.createHeader P n).1, hop, clock⟩ = true ↔
      ∀ last, s.router.1.seqCache.lastSeqn n = some last →
        SeqCache.Fresh last (UInt8.ofNat (s.sent n + 1)) := by
    rw [RouterPipeline.passes_eq_true_iff, RouterPipeline.verifyHmac_iff_authentic h.router_key,
      SeqCache.validateSequence_fst, h.header]
    exact and_iff_right (authentic_issuedHeader _)
  rw [← Bool.not_eq_true, hpasses]
  rcases h.tracks n with ⟨hlast, -, hle⟩ | ⟨hlast, hpos⟩ | hlast
  · rw [hlast]
    cases hold : old n with
    | none => simp [debt]
    | some c =>
        rw [hold] at hle
        simp only [Option.some.injEq, forall_eq', fresh_of_debt hle, true_and]
        omega
  · rw [hlast]
    have hfresh : SeqCache.Fresh (UInt8.ofNat (s.sent n)) (UInt8.ofNat (s.sent n + 1)) := by
      rw [← succ8_ofNat]
      exact fresh_succ8 _
    simp only [Option.some.injEq, forall_eq', hfresh, not_true_eq_false, false_iff]
    rintro ⟨hold, hlt⟩
    exact absurd (debt_le_sent hold.symm) (Nat.not_le.mpr hlt)
  · rw [hlast]
    simp only [reduceCtorEq, false_imp_iff, implies_true, not_true_eq_false, false_iff]
    rintro ⟨hold, hlt⟩
    rw [← hold] at hlt
    exact absurd hlt (Nat.not_lt_zero _)

/-- Until then every header has been dropped. -/
theorem Inv.all_dropped (h : Inv key old s) (hlast : s.router.1.seqCache.lastSeqn n = old n)
    (hlt : s.sent n < debt (old n)) : s.dropped n = s.sent n := by
  rcases h.tracks n with ⟨-, hdropped, -⟩ | ⟨hnew, -⟩ | hnone
  · exact hdropped
  · rw [hlast] at hnew
    exact absurd (debt_le_sent hnew) (Nat.not_le.mpr hlt)
  · rw [hlast] at hnone
    rw [hnone] at hlt
    exact absurd hlt (Nat.not_lt_zero _)

/-! ## Steps -/

theorem Inv.init {producer : Producer Name} {router : RouterPipeline Name × Rng}
    (hproducer : producer.security = ⟨key⟩) (hrouter : router.1.security = ⟨key⟩) :
    Inv key router.1.seqCache.lastSeqn (init producer router) where
  producer_key := hproducer
  router_key := hrouter
  counter n := Producer.currentSeqn_new n
  tracks _ := Or.inl ⟨rfl, rfl, Nat.zero_le _⟩
  dropped_le _ := Nat.zero_le _

/-- What a step makes of the packet that it sends. -/
theorem Inv.send (h : Inv key old s) :
    Inv key old (step P s (.send n hop clock)).2 := by
  have hout := RouterPipeline.forwards_process (P := P) (s := s.router)
    (a := ⟨n, (s.producer.createHeader P n).1, hop, clock⟩)
  have hcounter : ∀ m, (s.producer.createHeader P n).2.currentSeqn m =
      UInt8.ofNat (Function.update s.sent n (s.sent n + 1) m) :=
    Producer.currentSeqn_createHeader h.counter n
  cases hpass : s.router.1.passes P ⟨n, (s.producer.createHeader P n).1, hop, clock⟩ with
  | false =>
      obtain ⟨hlast, hlt⟩ := h.dropped_iff.mp hpass
      have hdropped := h.all_dropped hlast hlt
      have hcache := RouterPipeline.seqCache_of_not_passes hpass
      rw [hpass] at hout
      simp only [step, hout, Bool.false_eq_true, if_false]
      refine ⟨h.producer_key, RouterPipeline.security_process.trans h.router_key,
        hcounter, fun m => ?_, fun m => ?_⟩
      · rw [hcache]
        by_cases hm : m = n
        · subst hm
          simp only [Function.update_self]
          exact Or.inl ⟨hlast, by rw [hdropped], hlt⟩
        · simp only [Function.update_of_ne hm]
          exact h.tracks m
      · by_cases hm : m = n
        · subst hm
          simp only [Function.update_self]
          omega
        · simp only [Function.update_of_ne hm]
          exact h.dropped_le m
  | true =>
      rw [hpass] at hout
      simp only [step, hout, if_true]
      refine ⟨h.producer_key, RouterPipeline.security_process.trans h.router_key,
        hcounter, fun m => ?_, h.dropped_le⟩
      by_cases hm : m = n
      · subst hm
        right
        left
        simp only [Function.update_self]
        rw [RouterPipeline.lastSeqn_process_self hpass, h.header]
        exact ⟨rfl, Nat.succ_pos _⟩
      · simp only [Function.update_of_ne hm]
        rcases RouterPipeline.lastSeqn_process (n := m) (s := s.router)
          (a := ⟨n, (s.producer.createHeader P n).1, hop, clock⟩) (P := P)
          (fun hn => absurd hn.symm hm) with hsame | hnone
        · rw [hsame]
          exact h.tracks m
        · exact Or.inr (Or.inr hnone)

theorem Inv.forged (h : Inv key old s) (hallowed : Allowed P s (.forged a)) :
    Inv key old (step P s (.forged a)).2 := by
  have hdrop : s.router.1.passes P a = false := by
    rw [RouterPipeline.passes, show s.router.1.verifyHmac P a.contentName a.hdr = false
      from hallowed]
    rfl
  have hcache := RouterPipeline.seqCache_of_not_passes hdrop
  refine { h with router_key := ?_, tracks := ?_ }
  · exact RouterPipeline.security_process.trans h.router_key
  · intro m
    rw [show (step P s (.forged a)).2.router.1.seqCache = _ from hcache]
    exact h.tracks m

theorem Inv.step (h : Inv key old s) (x : Action Name) (hallowed : Allowed P s x) :
    Inv key old (step P s x).2 := by
  cases x with
  | send n hop clock => exact h.send
  | forged a => exact h.forged hallowed

/-- **What a restart costs.** For every producer and every router with its key, in any
states, and after any run since the restart with packets with wrong tags in between: the
next header of a name is dropped exactly if the router still holds the SEQN from before
and fewer headers than that SEQN, at most 128, have been sent; all of them have been
dropped then. In all no more headers of a name are dropped than that, none if its old
SEQN is 0, above 128 or not tracked. -/
theorem restart_costs (P : Primitives Name) (key : List UInt8) (producer : Producer Name)
    (router : RouterPipeline Name × Rng) (hproducer : producer.security = ⟨key⟩)
    (hrouter : router.1.security = ⟨key⟩) (s : State Name)
    (hreach : Machine.Reach (step P) (Allowed P) (init producer router) s) (n : Name) :
    let old := router.1.seqCache.lastSeqn n
    (∀ hop clock, (step P s (.send n hop clock)).1.forwards = false ↔
      s.router.1.seqCache.lastSeqn n = old ∧ s.sent n < debt old) ∧
    (s.router.1.seqCache.lastSeqn n = old → s.sent n < debt old →
      s.dropped n = s.sent n) ∧
    s.dropped n ≤ debt old := by
  intro old
  have h : Inv key router.1.seqCache.lastSeqn s :=
    hreach.invariant (I := Inv key router.1.seqCache.lastSeqn) (.init hproducer hrouter)
      fun _ x h hx => h.step x hx
  refine ⟨fun hop clock => ?_, fun hlast hlt => h.all_dropped hlast hlt, h.dropped_le n⟩
  have hdrop : s.router.1.passes P ⟨n, (s.producer.createHeader P n).1, hop, clock⟩ = false ↔
      s.router.1.seqCache.lastSeqn n = old ∧ s.sent n < debt old := h.dropped_iff
  rw [← hdrop, ← RouterPipeline.forwards_process (s := s.router)]
  rfl

/-- A router that has accepted the SEQN 1 drops the first header after a restart. -/
theorem restart_costs_sample :
    (step samplePrimitives (init (.new sampleKey)
        (RouterPipeline.process samplePrimitives (sampleRouter 100)
          (sampleArrival (sampleHeader 0 0 1))).2)
      (.send sampleName 7 ⟨1000000000, 0⟩)).1.forwards = false :=
  ((restart_costs samplePrimitives sampleKey (.new sampleKey)
    (RouterPipeline.process samplePrimitives (sampleRouter 100)
      (sampleArrival (sampleHeader 0 0 1))).2 rfl RouterPipeline.security_process _ .init
    sampleName).1 7 ⟨1000000000, 0⟩).mpr ⟨rfl, by decide +kernel⟩

end Restart
end CaccSecure
