import CaccSecure.Producer

/-!
# A network adversary

A producer and a router share a key, and an adversary delivers whatever it
likes. It cannot make tags: a packet with a matching tag carries a message that
the producer has already authenticated. As long as the producer issues at most
128 headers for each of at most `K` names, the router evicts no name and the
SEQNs it accepts for a name increase, so that no header is accepted twice.
-/

namespace CaccSecure
namespace Adversary

variable {Name : Type} [DecidableEq Name]

/-- The parties, and the headers created and accepted so far, with their
names, newest first. -/
structure Session (Name : Type) [DecidableEq Name] where
  producer : Producer Name
  router : RouterPipeline Name × Rng
  created : List (Name × CaccHeader)
  accepted : List (Name × CaccHeader)

inductive Action (Name : Type) where
  | create (contentName : Name)
  | inject (a : Arrival Name)

def init (key : List UInt8) (router : RouterPipeline Name) (rng : Rng) :
    Session Name := ⟨.new key, (router, rng), [], []⟩

def step (P : Primitives Name) (s : Session Name) :
    Action Name → Option Outcome × Session Name
  | .create n =>
      let (hdr, producer) := s.producer.createHeader P n
      (none, { s with producer := producer, created := (n, hdr) :: s.created })
  | .inject a =>
      let r := RouterPipeline.process P s.router a
      (some r.1, { s with
        router := r.2
        accepted :=
          if r.1.forwards then (a.contentName, a.hdr) :: s.accepted
          else s.accepted })

/-- The number of headers created for a name. -/
def issuedCount (n : Name) (created : List (Name × CaccHeader)) : ℕ :=
  created.countP fun c => c.1 = n

/-- The names with a created header. -/
def issuedNames (created : List (Name × CaccHeader)) : Finset Name :=
  (created.map Prod.fst).toFinset

/-- The producer keeps to its budget, and the adversary presents a matching tag
only for a message that the producer has authenticated. -/
def Allowed (P : Primitives Name) (key : List UInt8) (K : ℕ) (s : Session Name) :
    Action Name → Prop
  | .create n =>
      issuedCount n s.created < 128 ∧ (insert n (issuedNames s.created)).card ≤ K
  | .inject a => Authentic P key a.contentName a.hdr →
      ∃ c ∈ s.created,
        SecurityEngine.buffer P c.1 c.2.ph c.2.rhc c.2.seqn =
          SecurityEngine.buffer P a.contentName a.hdr.ph a.hdr.rhc a.hdr.seqn

/-- What holds of both parties and the logs. -/
structure Inv (P : Primitives Name) (key : List UInt8) (K : ℕ) (s : Session Name) :
    Prop where
  producer_key : s.producer.security = ⟨key⟩
  router_key : s.router.1.security = ⟨key⟩
  capacity : s.router.1.seqCache.maxTrackedEntries = K
  counter : ∀ n, s.producer.currentSeqn n = UInt8.ofNat (issuedCount n s.created)
  count_le : ∀ n, issuedCount n s.created ≤ 128
  card_le : (issuedNames s.created).card ≤ K
  issued : ∀ c ∈ s.created, ∃ k, 1 ≤ k ∧ k ≤ 128 ∧
    c.2 = issuedHeader P key c.1 (UInt8.ofNat k)
  tracked : ∀ n ∈ s.router.1.seqCache.names, n ∈ issuedNames s.created
  last_mem : ∀ n last, s.router.1.seqCache.lastSeqn n = some last →
    1 ≤ last.toNat ∧ last.toNat ≤ 128
  accepted_created : ∀ c ∈ s.accepted, c ∈ s.created
  accepted_le : ∀ c ∈ s.accepted, ∃ last,
    s.router.1.seqCache.lastSeqn c.1 = some last ∧ c.2.seqn.toNat ≤ last.toNat
  nodup : s.accepted.Nodup

variable {P : Primitives Name} {key : List UInt8} {K : ℕ} {s : Session Name}
  {n m : Name} {a : Arrival Name} {hdr : CaccHeader}

theorem issuedCount_cons : issuedCount n ((m, hdr) :: s.created) =
    if m = n then issuedCount n s.created + 1 else issuedCount n s.created := by
  unfold issuedCount
  by_cases hm : m = n <;> simp [hm]

theorem issuedNames_cons : issuedNames ((n, hdr) :: s.created) =
    insert n (issuedNames s.created) := by
  simp [issuedNames]

theorem Inv.init (nodeId : UInt32) (K : ℕ) (rate : UInt32) (alpha : ℚ)
    (maxHops : UInt8) (rng : Rng) :
    Inv P key K (init key (.new nodeId key K rate alpha maxHops) rng : Session Name) where
  producer_key := rfl
  router_key := rfl
  capacity := rfl
  counter n := Producer.currentSeqn_new n
  count_le n := Nat.zero_le _
  card_le := Nat.zero_le _
  issued c hc := by cases hc
  tracked n hn := by cases hn
  last_mem n last h := by simp [Adversary.init, RouterPipeline.new] at h
  accepted_created c hc := by cases hc
  accepted_le c hc := by cases hc
  nodup := List.nodup_nil

theorem Inv.create (h : Inv P key K s) (hallowed : Allowed P key K s (.create n)) :
    Inv P key K (step P s (.create n)).2 := by
  obtain ⟨hcount, hcard⟩ := hallowed
  refine { h with
    counter := ?_, count_le := ?_, card_le := ?_, issued := ?_, tracked := ?_,
    accepted_created := ?_ }
  · intro m
    show (s.producer.createHeader P n).2.currentSeqn m =
      UInt8.ofNat (issuedCount m ((n, _) :: s.created))
    rw [issuedCount_cons]
    split_ifs with hm
    · subst hm
      rw [Producer.currentSeqn_createHeader_self, h.counter, succ8_ofNat]
    · rw [Producer.currentSeqn_createHeader_of_ne (Ne.symm hm), h.counter]
  · intro m
    show issuedCount m ((n, _) :: s.created) ≤ 128
    rw [issuedCount_cons]
    split_ifs with hm
    · rw [← hm]
      exact hcount
    · exact h.count_le m
  · show (issuedNames ((n, _) :: s.created)).card ≤ K
    rw [issuedNames_cons]
    exact hcard
  · intro c hc
    rcases List.mem_cons.mp hc with rfl | hc
    · refine ⟨issuedCount n s.created + 1, by omega, hcount, ?_⟩
      show (s.producer.createHeader P n).1 = _
      rw [Producer.createHeader_fst h.producer_key, h.counter, succ8_ofNat]
    · exact h.issued c hc
  · intro m hm
    show m ∈ issuedNames ((n, _) :: s.created)
    rw [issuedNames_cons]
    exact Finset.mem_insert_of_mem (h.tracked m hm)
  · exact fun c hc => List.mem_cons_of_mem _ (h.accepted_created c hc)

/-- **Authenticity.** A packet that passes carries a created header. -/
theorem Inv.mem_created (h : Inv P key K s) (hinj : Function.Injective P.toUri)
    (hallowed : Allowed P key K s (.inject a)) (hpass : s.router.1.passes P a = true) :
    (a.contentName, a.hdr) ∈ s.created := by
  have hauth : Authentic P key a.contentName a.hdr :=
    (RouterPipeline.verifyHmac_iff_authentic h.router_key).mp
      (RouterPipeline.passes_eq_true_iff.mp hpass).1
  obtain ⟨⟨n, hdr⟩, hc, hbuffer⟩ := hallowed hauth
  obtain ⟨rfl, hph, hrhc, hseqn⟩ := SecurityEngine.buffer_inj hinj hbuffer
  obtain ⟨k, -, -, hk⟩ := h.issued _ hc
  -- both headers carry the tag of the same fields
  have hcauth : Authentic P key a.contentName hdr := by
    rw [show hdr = _ from hk]
    exact authentic_issuedHeader _
  have heq : hdr = a.hdr := by
    obtain ⟨ph, rhc, seqn, hmac⟩ := hdr
    obtain ⟨_, ⟨ph', rhc', seqn', hmac'⟩, _, _⟩ := a
    simp only at hph hrhc hseqn
    subst hph hrhc hseqn
    rw [Authentic] at hauth hcauth
    simp only [CaccHeader.mk.injEq, true_and]
    exact hcauth.trans hauth.symm
  rwa [← heq]

/-- The name of an accepted header is one of the issued ones. -/
theorem mem_issuedNames (hmem : (n, hdr) ∈ s.created) : n ∈ issuedNames s.created :=
  List.mem_toFinset.mpr (List.mem_map_of_mem (f := Prod.fst) hmem)

/-- The SEQNs of issued headers. -/
theorem Inv.seqn_range (h : Inv P key K s) (hmem : (n, hdr) ∈ s.created) :
    1 ≤ hdr.seqn.toNat ∧ hdr.seqn.toNat ≤ 128 := by
  obtain ⟨k, hk, hk', hhdr⟩ := h.issued _ hmem
  have hseqn : hdr.seqn = UInt8.ofNat k := congrArg CaccHeader.seqn hhdr
  rw [hseqn, UInt8.toNat_ofNat']
  omega

/-- Only created names are tracked, so there is always room for one more. -/
theorem Inv.room (h : Inv P key K s) (hmem : n ∈ issuedNames s.created) :
    n ∈ s.router.1.seqCache.names ∨ s.router.1.seqCache.names.length < K :=
  Recency.room_of_subset (SeqCache.nodup_names _) h.tracked hmem h.card_le

/-- **The stored SEQN increases.** -/
theorem Inv.last_lt (h : Inv P key K s) (hpass : s.router.1.passes P a = true)
    (hmem : (a.contentName, a.hdr) ∈ s.created) {last : UInt8}
    (hlast : s.router.1.seqCache.lastSeqn a.contentName = some last) :
    last.toNat < a.hdr.seqn.toNat := by
  obtain ⟨hlow, -⟩ := h.seqn_range hmem
  obtain ⟨-, hhigh⟩ := h.last_mem _ _ hlast
  have hfresh := RouterPipeline.fresh_of_passes hpass hlast
  exact Circular.lt_of_newer (h := 128) (by omega) last.toNat_lt hfresh

/-- **No eviction.** Accepting a header loses the SEQN of no other name. -/
theorem Inv.lastSeqn_kept (h : Inv P key K s)
    (hmem : (a.contentName, a.hdr) ∈ s.created) {last : UInt8} (hne : m ≠ a.contentName)
    (hlast : s.router.1.seqCache.lastSeqn m = some last) :
    (s.router.1.seqCache.validateSequence a.contentName a.hdr.seqn).2.lastSeqn m =
      some last := by
  have hroom := h.room (mem_issuedNames hmem)
  rw [← h.capacity] at hroom
  rw [SeqCache.lastSeqn_of_ne_of_room hne hroom, hlast]

theorem Inv.accept (h : Inv P key K s) (hpass : s.router.1.passes P a = true)
    (hmem : (a.contentName, a.hdr) ∈ s.created) :
    Inv P key K (step P s (.inject a)).2 := by
  have hout : (RouterPipeline.process P s.router a).1.forwards = true := by
    rw [RouterPipeline.forwards_process, hpass]
  have hcache := RouterPipeline.seqCache_of_passes hpass
  obtain ⟨-, hacc⟩ := RouterPipeline.passes_eq_true_iff.mp hpass
  have hself := SeqCache.lastSeqn_self hacc
  simp only [step, hout, if_true]
  refine { h with
    router_key := ?_, capacity := ?_, tracked := ?_, last_mem := ?_,
    accepted_created := ?_, accepted_le := ?_, nodup := ?_ }
  · exact RouterPipeline.security_process.trans h.router_key
  · exact RouterPipeline.maxTrackedEntries_process.trans h.capacity
  · intro m hm
    rcases RouterPipeline.mem_names_process hm with hm | ⟨rfl, -⟩
    · exact h.tracked m hm
    · exact mem_issuedNames hmem
  · intro m last hlast
    rw [hcache] at hlast
    by_cases hne : m = a.contentName
    · rw [hne, hself] at hlast
      rw [← Option.some.inj hlast]
      exact h.seqn_range hmem
    · rcases SeqCache.lastSeqn_of_ne hne (c := s.router.1.seqCache)
        (s := a.hdr.seqn) with hsame | hnone
      · rw [hsame] at hlast
        exact h.last_mem m last hlast
      · rw [hnone] at hlast
        cases hlast
  · intro c hc
    rcases List.mem_cons.mp hc with rfl | hc
    · exact hmem
    · exact h.accepted_created c hc
  · intro c hc
    rw [hcache]
    rcases List.mem_cons.mp hc with rfl | hc
    · exact ⟨a.hdr.seqn, hself, Nat.le_refl _⟩
    · obtain ⟨last, hlast, hle⟩ := h.accepted_le c hc
      by_cases hne : c.1 = a.contentName
      · rw [hne] at hlast ⊢
        exact ⟨a.hdr.seqn, hself, Nat.le_trans hle (h.last_lt hpass hmem hlast).le⟩
      · exact ⟨last, h.lastSeqn_kept hmem hne hlast, hle⟩
  · refine List.nodup_cons.mpr ⟨fun hold => ?_, h.nodup⟩
    obtain ⟨last, hlast, hle⟩ := h.accepted_le _ hold
    exact absurd (h.last_lt hpass hmem hlast) (Nat.not_lt.mpr hle)

theorem Inv.drop (h : Inv P key K s) (hdrop : s.router.1.passes P a = false) :
    Inv P key K (step P s (.inject a)).2 := by
  have hout : (RouterPipeline.process P s.router a).1.forwards = false := by
    rw [RouterPipeline.forwards_process, hdrop]
  have hcache := RouterPipeline.seqCache_of_not_passes hdrop
  simp only [step, hout, Bool.false_eq_true, if_false]
  refine { h with
    router_key := ?_, capacity := ?_, tracked := ?_, last_mem := ?_,
    accepted_le := ?_ }
  · exact RouterPipeline.security_process.trans h.router_key
  · exact RouterPipeline.maxTrackedEntries_process.trans h.capacity
  · rw [hcache]
    exact h.tracked
  · rw [hcache]
    exact h.last_mem
  · rw [hcache]
    exact h.accepted_le

theorem Inv.step (h : Inv P key K s) (hinj : Function.Injective P.toUri)
    (x : Action Name) (hallowed : Allowed P key K s x) :
    Inv P key K (step P s x).2 := by
  cases x with
  | create n => exact h.create hallowed
  | inject a =>
      cases hpass : s.router.1.passes P a with
      | true => exact h.accept hpass (h.mem_created hinj hallowed hpass)
      | false => exact h.drop hpass

/-- **Authenticity and at-most-once acceptance.** Whatever the adversary
delivers, the router accepts only headers that the producer created for that
very name, and each of them at most once. -/
theorem accepted_created_once (P : Primitives Name)
    (hinj : Function.Injective P.toUri) (key : List UInt8) (nodeId : UInt32) (K : ℕ)
    (rate : UInt32) (alpha : ℚ) (maxHops : UInt8) (rng : Rng) (s : Session Name)
    (hreach : Machine.Reach (step P) (Allowed P key K)
      (init key (.new nodeId key K rate alpha maxHops) rng) s) :
    (∀ c ∈ s.accepted, c ∈ s.created) ∧ s.accepted.Nodup := by
  have h : Inv P key K s := hreach.invariant (I := Inv P key K)
    (Inv.init nodeId K rate alpha maxHops rng) fun _ x h hx => h.step hinj x hx
  exact ⟨h.accepted_created, h.nodup⟩

/-- The session in which the header with SEQN 1 is created and delivered twice. -/
def sampleSession : Session (List UInt8) :=
  Machine.final (step samplePrimitives)
    (init sampleKey (sampleRouter 100).1 (sampleRouter 100).2)
    [.create sampleName, .inject (sampleArrival (sampleHeader 0 0 1)),
      .inject (sampleArrival (sampleHeader 0 0 1))]

theorem accepted_created_once_sample :
    (∀ c ∈ sampleSession.accepted, c ∈ sampleSession.created) ∧
      sampleSession.accepted.Nodup := by
  have hcreate : Allowed samplePrimitives sampleKey 10000
      (init sampleKey (sampleRouter 100).1 (sampleRouter 100).2)
      (.create sampleName) :=
    ⟨by decide, by decide⟩
  have hfirst : Allowed samplePrimitives sampleKey 10000
      (step samplePrimitives (init sampleKey (sampleRouter 100).1 (sampleRouter 100).2)
        (.create sampleName)).2 (.inject (sampleArrival (sampleHeader 0 0 1))) :=
    fun _ => ⟨(sampleName, sampleHeader 0 0 1), by decide +kernel, by decide⟩
  have hsecond : Allowed samplePrimitives sampleKey 10000
      (step samplePrimitives
        (step samplePrimitives (init sampleKey (sampleRouter 100).1 (sampleRouter 100).2)
          (.create sampleName)).2 (.inject (sampleArrival (sampleHeader 0 0 1)))).2
      (.inject (sampleArrival (sampleHeader 0 0 1))) :=
    fun _ => ⟨(sampleName, sampleHeader 0 0 1), by decide +kernel, by decide⟩
  exact accepted_created_once samplePrimitives (fun _ _ h => h) sampleKey 1 10000 100
    (1 / 2) 10 (Stream'.const 1) sampleSession
    (.step (.step (.step .init hcreate) hfirst) hsecond)

end Adversary
end CaccSecure
