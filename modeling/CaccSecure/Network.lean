import CaccSecure.Adversary
import CaccSecure.Fleet
import Mathlib.Algebra.Order.BigOperators.Group.Finset

/-!
# A network of routers

A producer and any number of routers share a key, and an adversary delivers
whatever it likes to whichever router it likes. What one router and the producer
have seen is a session of the adversary with that router alone, so the network
is as safe as each of these sessions.
-/

namespace CaccSecure
namespace Network

variable {ι Name : Type} [DecidableEq ι] [DecidableEq Name]

/-- The parties, the headers created so far, and those that each router has
accepted, newest first. -/
structure State (ι Name : Type) [DecidableEq Name] where
  producer : Producer Name
  fleet : Fleet ι Name
  created : List (Name × CaccHeader)
  accepted : ι → List (Name × CaccHeader)

inductive Action (ι Name : Type) where
  | create (contentName : Name)
  | inject (x : HookCall ι Name)

/-- The parameters with which a router is constructed. -/
structure Parameters where
  nodeId : UInt32
  maxTrackedEntries : ℕ
  maxRatePerWindow : UInt32
  alpha : ℚ
  maxHops : UInt8

/-- A new router with the key. -/
def Parameters.router (c : Parameters) (key : List UInt8) : RouterPipeline Name :=
  .new c.nodeId key c.maxTrackedEntries c.maxRatePerWindow c.alpha c.maxHops

/-- The parties before the first packet, all with the same key. -/
def init (key : List UInt8) (params : ι → Parameters) (rng : Rng) : State ι Name :=
  ⟨.new key, ⟨fun i => (params i).router key, rng⟩, [], fun _ => []⟩

def step (P : Primitives Name) (s : State ι Name) :
    Action ι Name → Option Outcome × State ι Name
  | .create n =>
      let (hdr, producer) := s.producer.createHeader P n
      (none, { s with producer := producer, created := (n, hdr) :: s.created })
  | .inject x =>
      let r := s.fleet.process P x.pipeline x.arrival
      (some r.1, { s with
        fleet := r.2
        accepted :=
          if r.1.forwards then
            Function.update s.accepted x.pipeline
              ((x.arrival.contentName, x.arrival.hdr) :: s.accepted x.pipeline)
          else s.accepted })

/-- What the producer and the router `i` have seen. -/
def session (s : State ι Name) (i : ι) : Adversary.Session Name :=
  ⟨s.producer, (s.fleet.pipelines i, s.fleet.rng), s.created, s.accepted i⟩

/-- The producer keeps to a budget that fits every router, and the adversary
presents a matching tag only for a message that the producer has authenticated. -/
def Allowed (P : Primitives Name) (key : List UInt8) (params : ι → Parameters)
    (s : State ι Name) : Action ι Name → Prop
  | .create n => ∀ i, Adversary.Allowed P key (params i).maxTrackedEntries (session s i)
      (.create n)
  | .inject x => Adversary.Allowed P key (params x.pipeline).maxTrackedEntries
      (session s x.pipeline) (.inject x.arrival)

variable {P : Primitives Name} {key : List UInt8} {params : ι → Parameters}
  {s : State ι Name} {x : HookCall ι Name} {i : ι}

/-! ## Sessions step on their own -/

theorem session_inject_self : session (step P s (.inject x)).2 x.pipeline =
    (Adversary.step P (session s x.pipeline) (.inject x.arrival)).2 := by
  have hpipelines : (s.fleet.process P x.pipeline x.arrival).2.pipelines x.pipeline =
      (RouterPipeline.process P (session s x.pipeline).router x.arrival).2.1 :=
    Fleet.pipelines_process_self
  have hout : (s.fleet.process P x.pipeline x.arrival).1 =
      (RouterPipeline.process P (session s x.pipeline).router x.arrival).1 := rfl
  cases hforwards : (RouterPipeline.process P (session s x.pipeline).router
      x.arrival).1.forwards with
  | true =>
      simp only [step, session, Adversary.step, hpipelines, hout] at hforwards ⊢
      simp only [hforwards, if_true, Function.update_self]
      rfl
  | false =>
      simp only [step, session, Adversary.step, hpipelines, hout] at hforwards ⊢
      simp only [hforwards, Bool.false_eq_true, if_false]
      rfl

/-- A packet for another router leaves a session alone, but for the draws. -/
theorem session_inject_of_ne (hi : i ≠ x.pipeline) :
    session (step P s (.inject x)).2 i =
      { session s i with
        router := ((session s i).router.1, (step P s (.inject x)).2.fleet.rng) } := by
  have hpipelines : (s.fleet.process P x.pipeline x.arrival).2.pipelines i =
      s.fleet.pipelines i := Fleet.pipelines_process_of_ne hi
  simp only [step, session, hpipelines]
  split_ifs
  · rw [Function.update_of_ne hi]
  · rfl

/-- The invariant of a session does not look at the draws. -/
theorem inv_of_draws {K : ℕ} {t : Adversary.Session Name} (h : Adversary.Inv P key K t)
    (rng : Rng) : Adversary.Inv P key K { t with router := (t.router.1, rng) } where
  producer_key := h.producer_key
  router_key := h.router_key
  capacity := h.capacity
  counter := h.counter
  count_le := h.count_le
  card_le := h.card_le
  issued := h.issued
  tracked := h.tracked
  last_mem := h.last_mem
  accepted_created := h.accepted_created
  accepted_le := h.accepted_le
  nodup := h.nodup

/-- Every session keeps the invariant of a router alone with the adversary. -/
def Inv (P : Primitives Name) (key : List UInt8) (params : ι → Parameters)
    (s : State ι Name) : Prop :=
  ∀ i, Adversary.Inv P key (params i).maxTrackedEntries (session s i)

omit [DecidableEq ι] in
theorem Inv.init (key : List UInt8) (params : ι → Parameters) (rng : Rng) :
    Inv P key params (init key params rng : State ι Name) :=
  fun _ => Adversary.Inv.init _ _ _ _ _ _

theorem Inv.step (h : Inv P key params s) (hinj : Function.Injective P.toUri)
    (x : Action ι Name) (hx : Allowed P key params s x) :
    Inv P key params (step P s x).2 := by
  intro i
  cases x with
  | create n => exact (h i).create (hx i)
  | inject x =>
      by_cases hi : i = x.pipeline
      · subst hi
        rw [session_inject_self]
        exact (h _).step hinj _ hx
      · rw [session_inject_of_ne hi]
        exact inv_of_draws (h i) _

/-! ## The network -/

/-- **Safety of the network.** Any number of routers with any parameters, and
an adversary that delivers to any of them in any order: each router accepts only
headers that the producer created for that very name, and none of them twice, so
that a network of finitely many routers accepts a header at most once for each. -/
theorem accepted_once_per_router (P : Primitives Name)
    (hinj : Function.Injective P.toUri) (key : List UInt8) (params : ι → Parameters)
    (rng : Rng) (s : State ι Name)
    (hreach : Machine.Reach (step P) (Allowed P key params) (init key params rng) s) :
    (∀ i, (∀ c ∈ s.accepted i, c ∈ s.created) ∧ (s.accepted i).Nodup) ∧
    ∀ (routers : Finset ι) (c : Name × CaccHeader),
      (∑ i ∈ routers, (s.accepted i).count c) ≤ routers.card := by
  have h : Inv P key params s := hreach.invariant (I := Inv P key params)
    (Inv.init key params rng) fun _ x h hx => h.step hinj x hx
  refine ⟨fun i => ⟨(h i).accepted_created, (h i).nodup⟩, fun routers c => ?_⟩
  have hone : ∀ i ∈ routers, (s.accepted i).count c ≤ 1 :=
    fun i _ => List.nodup_iff_count_le_one.mp (h i).nodup c
  simpa using Finset.sum_le_card_nsmul routers _ 1 hone

/-- Two routers of different size, and a header that is delivered to both. -/
def sampleParams (b : Bool) : Parameters := ⟨if b then 1 else 2, if b then 1 else 10, 10, 1 / 2, 10⟩

def sampleState : State Bool (List UInt8) :=
  Machine.final (step samplePrimitives)
    (init sampleKey sampleParams (Stream'.const 1))
    [.create sampleName, .inject ⟨true, sampleArrival (sampleHeader 0 0 1)⟩,
      .inject ⟨false, sampleArrival (sampleHeader 0 0 1)⟩]

theorem accepted_once_per_router_sample :
    ((∀ c ∈ sampleState.accepted true, c ∈ sampleState.created) ∧
      (sampleState.accepted true).Nodup) ∧
    (∀ c ∈ sampleState.accepted false, c ∈ sampleState.created) ∧
      (sampleState.accepted false).Nodup := by
  let start : State Bool (List UInt8) := init sampleKey sampleParams (Stream'.const 1)
  let created := (step samplePrimitives start (.create sampleName)).2
  let once := (step samplePrimitives created
    (.inject ⟨true, sampleArrival (sampleHeader 0 0 1)⟩)).2
  have hcreate : Allowed samplePrimitives sampleKey sampleParams start
      (.create sampleName) := by
    intro i
    cases i <;> exact ⟨by decide, by decide⟩
  have hfirst : Allowed samplePrimitives sampleKey sampleParams created
      (.inject ⟨true, sampleArrival (sampleHeader 0 0 1)⟩) :=
    fun _ => ⟨(sampleName, sampleHeader 0 0 1), by decide +kernel, by decide⟩
  have hsecond : Allowed samplePrimitives sampleKey sampleParams once
      (.inject ⟨false, sampleArrival (sampleHeader 0 0 1)⟩) :=
    fun _ => ⟨(sampleName, sampleHeader 0 0 1), by decide +kernel, by decide⟩
  have honce := (accepted_once_per_router samplePrimitives (fun _ _ h => h) sampleKey
    sampleParams (Stream'.const 1) sampleState
    (.step (.step (.step .init hcreate) hfirst) hsecond)).1
  exact ⟨honce true, honce false⟩

end Network
end CaccSecure
