import CaccSecure.HybridHook
import CaccSecure.Network
import CaccSecure.PhInflationHook
import CaccSecure.ReplayHook

/-!
# The attack scripts against the network

Each of the six attack scripts stands between a producer and the routers: it is
called with headers that the producer created, and hands on what it makes of
them. None computes a tag. With the producer they are therefore adversaries of
the network, and the routers are as safe from them as from any other.
-/

namespace CaccSecure

/-- What the safety of an attack script rests on: each call processes one packet,
with a pair of SEQN and tag that came in for its name, now or before. -/
structure AttackScript (ι : Type) {Name : Type} [DecidableEq ι] [DecidableEq Name]
    (P : Primitives Name) (σ κ : Type) where
  hook : σ → κ → (Outcome × CaccHeader) × σ
  call : κ → HookCall ι Name
  fleet : σ → Fleet ι Name
  pairs : σ → Name → List (UInt8 × UInt32)
  outcome_hook : ∀ s x, (hook s x).1.1 = ((fleet s).process P (call x).pipeline
    { (call x).arrival with hdr := (hook s x).1.2 }).1
  fleet_hook : ∀ s x, fleet (hook s x).2 = ((fleet s).process P (call x).pipeline
    { (call x).arrival with hdr := (hook s x).1.2 }).2
  sent : ∀ s x,
    ((hook s x).1.2.seqn, (hook s x).1.2.hmac) =
        ((call x).arrival.hdr.seqn, (call x).arrival.hdr.hmac) ∨
      ((hook s x).1.2.seqn, (hook s x).1.2.hmac) ∈ pairs s (call x).arrival.contentName
  recorded : ∀ s x n, ∀ p ∈ pairs (hook s x).2 n, p ∈ pairs s n ∨
    n = (call x).arrival.contentName ∧
      (p = ((call x).arrival.hdr.seqn, (call x).arrival.hdr.hmac) ∨
        p = ((hook s x).1.2.seqn, (hook s x).1.2.hmac))

theorem PhInflationScript.header_phInflationHook {ι Name : Type} [DecidableEq ι]
    [DecidableEq Name] {P : Primitives Name} {s : PhInflationScript ι Name}
    {x : HookCall ι Name} : (phInflationHook P s x).1.2 = (inflate x.arrival).hdr := by
  simp only [phInflationHook]
  split_ifs <;> rfl

namespace ReplayScript

variable {ι Name : Type} [DecidableEq ι] [DecidableEq Name] {P : Primitives Name}
  {s : ReplayScript ι Name} {x : ReplayCall ι Name} {n : Name}

theorem header_replayHook : (replayHook P s x).1.2 = (s.outgoing x).hdr := by
  simp only [replayHook, outgoing]
  split_ifs <;> rfl

theorem fleet_replayHook : (replayHook P s x).2.fleet =
    (s.fleet.process P x.pipeline (s.outgoing x)).2 := by
  have hfleet := (replayOrRecord_spec s x).1
  simp only [replayHook, outgoing, hfleet]
  split_ifs <;> rfl

theorem pairs_replayHook : (replayHook P s x).2.pairs n =
    (s.replayOrRecord x).2.pairs n := by
  simp only [replayHook]
  split_ifs <;> rfl

omit [DecidableEq ι] in
/-- A replaced pair comes from the history, which the call then leaves alone. -/
theorem outgoing_of_replaces (h : s.Replaces x) :
    ((s.outgoing x).hdr.seqn, (s.outgoing x).hdr.hmac) ∈ s.pairs x.arrival.contentName ∧
      (s.replayOrRecord x).2.pairs n = s.pairs n := by
  have hlen : x.index % (s.pairs x.arrival.contentName).length <
      (s.pairs x.arrival.contentName).length :=
    Nat.mod_lt _ (List.length_pos_iff.mpr h.2)
  simp only [outgoing, replayOrRecord, if_pos h]
  refine ⟨?_, rfl⟩
  rw [List.getD_eq_getElem _ _ hlen]
  exact List.getElem_mem hlen

omit [DecidableEq ι] in
/-- Without a replacement the packet is handed on and recorded. -/
theorem outgoing_of_not_replaces (h : ¬ s.Replaces x) :
    (s.outgoing x).hdr = x.arrival.hdr ∧
      ∀ p ∈ (s.replayOrRecord x).2.pairs n, p ∈ s.pairs n ∨
        n = x.arrival.contentName ∧ p = (x.arrival.hdr.seqn, x.arrival.hdr.hmac) := by
  simp only [outgoing, replayOrRecord, if_neg h, true_and]
  intro p hp
  by_cases hn : n = x.arrival.contentName
  · subst hn
    simp only [pairs, Finmap.lookup_insert, Option.getD_some] at hp
    rcases List.mem_append.mp (mem_of_mem_capped hp) with hold | hnew
    · exact Or.inl hold
    · exact Or.inr ⟨rfl, List.mem_singleton.mp hnew⟩
  · left
    simpa only [pairs, Finmap.lookup_insert_of_ne _ hn] using hp

end ReplayScript

namespace AttackScript

variable {ι Name : Type} [DecidableEq ι] [DecidableEq Name]

/-! ## The six scripts -/

/-- S1, with or without the key. -/
def phTampering (P : Primitives Name) (hasKey : Bool) :
    AttackScript ι P (TamperingScript ι Name) (HookCall ι Name) where
  hook := TamperingScript.phTamperingHook P hasKey
  call x := x
  fleet s := s.fleet
  pairs _ _ := []
  outcome_hook _ _ := rfl
  fleet_hook _ _ := TamperingScript.fleet_tamperingHook
  sent _ _ := Or.inl rfl
  recorded _ _ _ _ hp := Or.inl hp

/-- S2, with or without the key. -/
def rhcTampering (P : Primitives Name) (hasKey : Bool) (maxHops : UInt8) :
    AttackScript ι P (TamperingScript ι Name) (RhcTamperingCall ι Name) where
  hook := TamperingScript.rhcTamperingHook P hasKey maxHops
  call x := x.toHookCall
  fleet s := s.fleet
  pairs _ _ := []
  outcome_hook _ _ := rfl
  fleet_hook _ _ := TamperingScript.fleet_tamperingHook
  sent _ _ := Or.inl rfl
  recorded _ _ _ _ hp := Or.inl hp

/-- S3. -/
def replay (P : Primitives Name) :
    AttackScript ι P (ReplayScript ι Name) (ReplayCall ι Name) where
  hook := ReplayScript.replayHook P
  call x := x.toHookCall
  fleet s := s.fleet
  pairs s := s.pairs
  outcome_hook s x := by
    rw [ReplayScript.outcome_replayHook, ReplayScript.header_replayHook]
    rfl
  fleet_hook s x := by
    rw [ReplayScript.fleet_replayHook, ReplayScript.header_replayHook]
    rfl
  sent s x := by
    rw [ReplayScript.header_replayHook]
    by_cases h : s.Replaces x
    · exact Or.inr (ReplayScript.outgoing_of_replaces (n := x.arrival.contentName) h).1
    · rw [(ReplayScript.outgoing_of_not_replaces (n := x.arrival.contentName) h).1]
      exact Or.inl rfl
  recorded s x n p hp := by
    rw [ReplayScript.pairs_replayHook] at hp
    by_cases h : s.Replaces x
    · rw [(ReplayScript.outgoing_of_replaces h).2] at hp
      exact Or.inl hp
    · rcases (ReplayScript.outgoing_of_not_replaces h).2 p hp with hold | ⟨hn, hnew⟩
      · exact Or.inl hold
      · exact Or.inr ⟨hn, Or.inl hnew⟩

/-- S4. -/
def phInflation (P : Primitives Name) :
    AttackScript ι P (PhInflationScript ι Name) (HookCall ι Name) where
  hook := PhInflationScript.phInflationHook P
  call x := x
  fleet s := s.fleet
  pairs _ _ := []
  outcome_hook s x := by
    rw [PhInflationScript.outcome_phInflationHook, PhInflationScript.header_phInflationHook]
    rfl
  fleet_hook s x := by
    rw [PhInflationScript.fleet_phInflationHook, PhInflationScript.header_phInflationHook]
    rfl
  sent s x := by
    rw [PhInflationScript.header_phInflationHook]
    exact Or.inl rfl
  recorded _ _ _ _ hp := Or.inl hp

/-- S5. -/
def byzantine (P : Primitives Name) :
    AttackScript ι P (TamperingScript ι Name) (HookCall ι Name) where
  hook := TamperingScript.byzantineHook P
  call x := x
  fleet s := s.fleet
  pairs _ _ := []
  outcome_hook _ _ := rfl
  fleet_hook _ _ := TamperingScript.fleet_tamperingHook
  sent _ _ := Or.inl rfl
  recorded _ _ _ _ hp := Or.inl hp

/-- S6. -/
def hybrid (P : Primitives Name) :
    AttackScript ι P (HybridScript ι Name) (HybridCall ι Name) where
  hook := HybridScript.hybridHook P
  call x := x.toHookCall
  fleet s := s.fleet
  pairs s := s.pairs
  outcome_hook _ _ := rfl
  fleet_hook _ _ := TamperingScript.fleet_tamperingHook
  sent s x := HybridScript.pair_attack s x
  recorded s x n p hp := by
    rw [HybridScript.pairs_hybridHook] at hp
    split_ifs at hp with hn
    · rcases HybridScript.mem_of_mem_recorded hp with hold | hnew
      · rw [← hn.1] at hold
        exact Or.inl hold
      · exact Or.inr ⟨hn.1, Or.inr hnew⟩
    · exact Or.inl hp

/-! ## Experiments -/

/-- A producer and a script, the headers created so far, and those that each router
has accepted, newest first. -/
structure Experiment (ι Name σ : Type) [DecidableEq Name] where
  producer : Producer Name
  script : σ
  created : List (Name × CaccHeader)
  accepted : ι → List (Name × CaccHeader)

inductive Action (Name κ : Type) where
  | create (contentName : Name)
  | call (x : κ)

variable {P : Primitives Name} {σ κ : Type} (A : AttackScript ι P σ κ)

/-- The routers are new, and nothing has come in yet. -/
def init (start : Fleet ι Name → σ) (key : List UInt8) (params : ι → Network.Parameters)
    (rng : Rng) : Experiment ι Name σ :=
  ⟨.new key, start ⟨fun i => (params i).router key, rng⟩, [], fun _ => []⟩

def step (s : Experiment ι Name σ) :
    Action Name κ → Option Outcome × Experiment ι Name σ
  | .create n =>
      let (hdr, producer) := s.producer.createHeader P n
      (none, { s with producer := producer, created := (n, hdr) :: s.created })
  | .call x =>
      let (r, script) := A.hook s.script x
      (some r.1, { s with
        script := script
        accepted :=
          if r.1.forwards then
            Function.update s.accepted (A.call x).pipeline
              (((A.call x).arrival.contentName, r.2) :: s.accepted (A.call x).pipeline)
          else s.accepted })

/-- The experiment as a state of the network. -/
def network (s : Experiment ι Name σ) : Network.State ι Name :=
  ⟨s.producer, A.fleet s.script, s.created, s.accepted⟩

/-- The packet that the script delivers. -/
def delivery (s : Experiment ι Name σ) (x : κ) : HookCall ι Name :=
  ⟨(A.call x).pipeline, { (A.call x).arrival with hdr := (A.hook s.script x).1.2 }⟩

/-- The producer keeps to its budget. The script is called with created headers, and
no tag of a created header fits another message that the script sends with it. -/
def Allowed (key : List UInt8) (params : ι → Network.Parameters)
    (s : Experiment ι Name σ) : Action Name κ → Prop
  | .create n => Network.Allowed P key params (A.network s) (.create n)
  | .call x =>
      let n := (A.call x).arrival.contentName
      let sent := (A.hook s.script x).1.2
      (n, (A.call x).arrival.hdr) ∈ s.created ∧
        ∀ c ∈ s.created, c.1 = n → c.2.hmac = sent.hmac → Authentic P key n sent →
          c.2.ph = sent.ph ∧ c.2.rhc = sent.rhc ∧ c.2.seqn = sent.seqn

/-- The routers accept only created headers of their names, and each of them once. -/
def Safe (start : Fleet ι Name → σ) : Prop :=
  ∀ (key : List UInt8) (params : ι → Network.Parameters) (rng : Rng)
    (s : Experiment ι Name σ),
    Machine.Reach A.step (A.Allowed key params) (init start key params rng) s →
      ∀ i, (∀ c ∈ s.accepted i, c ∈ s.created) ∧ (s.accepted i).Nodup

/-- The network keeps its invariant, and the script has recorded created pairs. -/
structure Inv (key : List UInt8) (params : ι → Network.Parameters)
    (s : Experiment ι Name σ) : Prop where
  network : Network.Inv P key params (A.network s)
  pairs : ∀ n, ∀ p ∈ A.pairs s.script n, ∃ c ∈ s.created,
    c.1 = n ∧ (c.2.seqn, c.2.hmac) = p

variable {A} {key : List UInt8} {params : ι → Network.Parameters}
  {s : Experiment ι Name σ} {x : κ}

/-- **Simulation.** A call is a delivery in the network. -/
theorem network_call : A.network (A.step s (.call x)).2 =
    (Network.step P (A.network s) (.inject (A.delivery s x))).2 := by
  simp only [network, step, Network.step, delivery, A.fleet_hook, A.outcome_hook]
  rfl

/-- What the script sends has the SEQN and the tag of a created header. -/
theorem Inv.sent (h : A.Inv key params s) (hallowed : A.Allowed key params s (.call x)) :
    ∃ c ∈ s.created, c.1 = (A.call x).arrival.contentName ∧
      (c.2.seqn, c.2.hmac) =
        ((A.hook s.script x).1.2.seqn, (A.hook s.script x).1.2.hmac) := by
  rcases A.sent s.script x with heq | hmem
  · rw [heq]
    exact ⟨_, hallowed.1, rfl, rfl⟩
  · exact h.pairs _ _ hmem

theorem Inv.call (h : A.Inv key params s) (hinj : Function.Injective P.toUri)
    (hallowed : A.Allowed key params s (.call x)) :
    A.Inv key params (A.step s (.call x)).2 := by
  obtain ⟨c, hc, hname, hpair⟩ := h.sent hallowed
  constructor
  · rw [network_call]
    refine h.network.step hinj _ fun hauth => ?_
    obtain ⟨hph, hrhc, hseqn⟩ := hallowed.2 c hc hname (Prod.mk.inj hpair).2 hauth
    refine ⟨c, hc, ?_⟩
    rw [hname, hph, hrhc, hseqn]
    rfl
  · intro n p hp
    rcases A.recorded s.script x n p hp with hold | ⟨rfl, rfl | rfl⟩
    · exact h.pairs n p hold
    · exact ⟨_, hallowed.1, rfl, rfl⟩
    · exact ⟨c, hc, hname, hpair⟩

theorem Inv.create {n : Name} (h : A.Inv key params s)
    (hinj : Function.Injective P.toUri) (hallowed : A.Allowed key params s (.create n)) :
    A.Inv key params (A.step s (.create n)).2 where
  network := h.network.step hinj (.create n) hallowed
  pairs m p hp := by
    obtain ⟨c, hc, hpair⟩ := h.pairs m p hp
    exact ⟨c, List.mem_cons_of_mem _ hc, hpair⟩

/-- **Safety** of every script that keeps the law of pairs. -/
theorem safe (A : AttackScript ι P σ κ) (hinj : Function.Injective P.toUri)
    {start : Fleet ι Name → σ} (hfleet : ∀ f, A.fleet (start f) = f)
    (hpairs : ∀ f n, A.pairs (start f) n = []) : A.Safe start := by
  intro key params rng s hreach i
  have hinit : A.Inv key params (init start key params rng) := by
    constructor
    · rw [network, init, hfleet]
      exact Network.Inv.init key params rng
    · intro n p hp
      rw [init, hpairs] at hp
      cases hp
  have h : A.Inv key params s := hreach.invariant (I := A.Inv key params) hinit
    fun s x h hx => by
      cases x with
      | create n => exact h.create hinj hx
      | call x => exact h.call hinj hx
  exact ⟨(h.network i).accepted_created, (h.network i).nodup⟩

/-- **The routers are safe from the six attack scripts.** In every run of a producer
and one of the scripts, in any order of steps and with any draws, from new routers of
any parameters: as long as the producer keeps to its budget, the script is called with
created headers, and no created tag fits another message sent with it, each router
accepts only headers that the producer created for that very name, and none of them
twice. The scripts replay, tamper and inflate in vain. -/
theorem attack_scripts_safe (P : Primitives Name) (hinj : Function.Injective P.toUri) :
    (∀ hasKey, (phTampering (ι := ι) P hasKey).Safe TamperingScript.start) ∧
    (∀ hasKey maxHops,
      (rhcTampering (ι := ι) P hasKey maxHops).Safe TamperingScript.start) ∧
    (replay (ι := ι) P).Safe ReplayScript.start ∧
    (phInflation (ι := ι) P).Safe PhInflationScript.start ∧
    (byzantine (ι := ι) P).Safe TamperingScript.start ∧
    (hybrid (ι := ι) P).Safe HybridScript.start := by
  refine ⟨fun hasKey => ?_, fun hasKey maxHops => ?_, ?_, ?_, ?_, ?_⟩
  · exact safe _ hinj (fun _ => rfl) fun _ _ => rfl
  · exact safe _ hinj (fun _ => rfl) fun _ _ => rfl
  · exact safe _ hinj (fun _ => rfl) fun _ _ => rfl
  · exact safe _ hinj (fun _ => rfl) fun _ _ => rfl
  · exact safe _ hinj (fun _ => rfl) fun _ _ => rfl
  · exact safe _ hinj (fun _ => rfl) fun _ _ => rfl

/-- The hybrid script and a new router. -/
def sampleStart : Experiment Unit (List UInt8) (HybridScript Unit (List UInt8)) :=
  init HybridScript.start sampleKey (fun _ => ⟨1, 10000, 1, 1 / 2, 10⟩) (Stream'.const 1)

/-- The first header, with 50 added to its PH. -/
def sampleTamper : HybridCall Unit (List UInt8) :=
  ⟨⟨(), sampleArrival (sampleHeader 0 0 1)⟩, 0, 0, 1⟩

/-- The second header, with the pair that the script recorded first. -/
def sampleReplay : HybridCall Unit (List UInt8) :=
  ⟨⟨(), sampleArrival (sampleHeader 0 0 2)⟩, 2, 0, 1⟩

/-- The tampered header is dropped and recorded, its pair is accepted once, and then
dropped. -/
def sampleActions : List (Action (List UInt8) (HybridCall Unit (List UInt8))) :=
  [.create sampleName, .create sampleName, .call sampleTamper, .call sampleReplay,
    .call sampleReplay]

theorem attack_scripts_safe_sample :
    let s := Machine.final (hybrid samplePrimitives).step sampleStart sampleActions
    (∀ c ∈ s.accepted (), c ∈ s.created) ∧ (s.accepted ()).Nodup ∧
      s.accepted () = [(sampleName, sampleHeader 0 0 1)] := by
  intro s
  let A : AttackScript Unit samplePrimitives _ _ := hybrid samplePrimitives
  have hallowed : ∀ e ∈ Machine.trace A.step sampleStart sampleActions,
      A.Allowed sampleKey (fun _ => ⟨1, 10000, 1, 1 / 2, 10⟩) e.pre e.inp := by
    simp only [sampleActions, Machine.trace, List.forall_mem_cons]
    refine ⟨fun i => ?_, fun i => ?_, ⟨?_, ?_⟩, ⟨?_, ?_⟩, ⟨?_, ?_⟩, fun e he => by cases he⟩
    · cases i
      exact ⟨by decide +kernel, by decide +kernel⟩
    · cases i
      exact ⟨by decide +kernel, by decide +kernel⟩
    all_goals decide +kernel
  have hsafe := (attack_scripts_safe samplePrimitives fun _ _ h => h).2.2.2.2.2 sampleKey _
    (Stream'.const 1) s (Machine.Reach.init.final hallowed) ()
  exact ⟨hsafe.1, hsafe.2, by decide +kernel⟩

end AttackScript
end CaccSecure
