import CaccSecure.Producer
import CaccSecure.Books

/-!
# The shape of honest headers

Under one key, the headers of a name come from the producer and from cache
responses to headers that exist already. `Derived` is this tree of headers, with
the number of the producer's call and the number of the responses below it.
Every header of the tree is determined by these two numbers, however often PH
and SEQN have wrapped.
-/

namespace CaccSecure

variable {Name : Type} [DecidableEq Name]

/-- The header lies `k` cache responses below the producer's `c`-th header of
`n`; the producer has issued headers for the names `ns` before. -/
inductive Derived (P : Primitives Name) (key : List UInt8) (n : Name) :
    ℕ → ℕ → CaccHeader → Prop
  | create (ns : List Name) :
      Derived P key n (ns.count n + 1) 0
        (Producer.createHeader P (Machine.final (Producer.createHeader P) (.new key) ns) n).1
  | respond {c k : ℕ} {cached : CaccHeader} (r : CacheResponse) (hkey : r.security = ⟨key⟩)
      (h : Derived P key n c k cached) :
      Derived P key n c (k + 1) (r.updateHeader P n cached)

variable {P : Primitives Name} {key : List UInt8} {n : Name} {c k : ℕ} {hdr : CaccHeader}

/-- The producer's counter of a name is the number of its headers. -/
theorem Producer.final_createHeader (ns : List Name) {p : Producer Name} :
    (Machine.final (createHeader P) p ns).security = p.security ∧
      ∀ c, p.currentSeqn n = UInt8.ofNat c →
        (Machine.final (createHeader P) p ns).currentSeqn n = UInt8.ofNat (c + ns.count n) := by
  induction ns generalizing p with
  | nil => exact ⟨rfl, fun c hc => hc⟩
  | cons m ns ih =>
      obtain ⟨hkey, hcount⟩ := ih (p := (createHeader P p m).2)
      refine ⟨hkey, fun c hc => ?_⟩
      show (Machine.final (createHeader P) (createHeader P p m).2 ns).currentSeqn n = _
      by_cases hm : m = n
      · subst hm
        have hnext := currentSeqn_createHeader_self (P := P) (p := p) (n := m)
        rw [hc, succ8_ofNat] at hnext
        rw [hcount (c + 1) hnext, List.count_cons_self]
        congr 1
        omega
      · rw [hcount c, List.count_cons_of_ne hm]
        rw [currentSeqn_createHeader_of_ne (Ne.symm hm), hc]

/-- The header at depth `k` below the `c`-th issued one. -/
def honestHeader (P : Primitives Name) (key : List UInt8) (n : Name) (c k : ℕ) : CaccHeader :=
  ⟨.ofNat k, 0, .ofNat (c + k),
    SecurityEngine.computeHmac P ⟨key⟩ n (.ofNat k) 0 (.ofNat (c + k))⟩

/-- **Shape.** The two numbers determine the header. -/
theorem Derived.eq_honestHeader (h : Derived P key n c k hdr) :
    hdr = honestHeader P key n c k := by
  induction h with
  | create ns =>
      obtain ⟨hkey, hcount⟩ := Producer.final_createHeader (P := P) (n := n) ns
        (p := Producer.new key)
      rw [Producer.createHeader_fst hkey, hcount 0 (Producer.currentSeqn_new n), succ8_ofNat]
      simp [issuedHeader, honestHeader]
  | respond r hkey _ ih =>
      rw [ih]
      simp only [CacheResponse.updateHeader, honestHeader, hkey, succ8_ofNat]
      rfl

omit [DecidableEq Name] in
theorem authentic_honestHeader (c k : ℕ) :
    Authentic P key n (honestHeader P key n c k) := rfl

/-! ## Chains -/

/-- Each header is a cache response to the one before it, and the first is the
producer's `c`-th header. -/
structure ResponseChain (P : Primitives Name) (key : List UInt8) (n : Name) (c : ℕ)
    (chain : ℕ → CaccHeader) : Prop where
  first : Derived P key n c 0 (chain 0)
  next : ∀ i, ∃ r : CacheResponse, r.security = ⟨key⟩ ∧
    chain (i + 1) = r.updateHeader P n (chain i)

/-- `ks` are the members of a chain that are delivered: in order, and with at
most 127 skipped between two of them. -/
def DeliveredInOrder (ks : List ℕ) : Prop :=
  ks.IsChain fun j k => j < k ∧ k - j - 1 ≤ 127

instance : DecidablePred DeliveredInOrder :=
  fun _ => inferInstanceAs (Decidable (List.IsChain _ _))

theorem ResponseChain.derived {chain : ℕ → CaccHeader} (h : ResponseChain P key n c chain) :
    ∀ i, Derived P key n c i (chain i)
  | 0 => h.first
  | i + 1 => by
      obtain ⟨r, hkey, hnext⟩ := h.next i
      rw [hnext]
      exact .respond r hkey (h.derived i)

/-- The headers below an issued one form a chain. -/
theorem responseChain_honestHeader (ns : List Name) :
    ResponseChain P key n (ns.count n + 1) (honestHeader P key n (ns.count n + 1)) where
  first := by
    have hcreate : Derived P key n (ns.count n + 1) 0 _ := Derived.create ns
    rwa [hcreate.eq_honestHeader] at hcreate
  next i := by
    refine ⟨⟨⟨key⟩⟩, rfl, ?_⟩
    simp only [CacheResponse.updateHeader, honestHeader, succ8_ofNat]
    rfl

namespace RouterPipeline

variable {s : RouterPipeline Name × Rng}

/-- What the router holds about the name is an earlier member of the chain, or
nothing. -/
def HoldsBefore (s : RouterPipeline Name × Rng) (n : Name) (c : ℕ) (ks : List ℕ) : Prop :=
  ∀ last, s.1.seqCache.lastSeqn n = some last →
    ∃ j, last = UInt8.ofNat (c + j) ∧ DeliveredInOrder (j :: ks)

/-- The next member of the chain passes, and is what the router then holds. -/
theorem HoldsBefore.deliver {ks : List ℕ} {a : Arrival Name}
    (h : HoldsBefore s a.contentName c (k :: ks)) (hks : DeliveredInOrder (k :: ks))
    (hkey : s.1.security = ⟨key⟩) (ha : a.hdr = honestHeader P key a.contentName c k) :
    s.1.passes P a = true ∧ HoldsBefore (process P s a).2 a.contentName c ks := by
  have hpass : s.1.passes P a = true := by
    apply passes_of_authentic hkey
    · rw [ha]
      exact authentic_honestHeader c k
    · intro last hlast
      obtain ⟨j, rfl, hj⟩ := h last hlast
      obtain ⟨hlt, hskip⟩ := (List.isChain_cons_cons.mp hj).1
      rw [ha]
      apply (SeqCache.fresh_ofNat (by omega)).mpr
      omega
  refine ⟨hpass, fun last hlast => ?_⟩
  rw [lastSeqn_process_self hpass, ha] at hlast
  cases hlast
  exact ⟨k, rfl, hks⟩

/-- A packet for another name leaves that alone. -/
theorem HoldsBefore.other {ks : List ℕ} {a : Arrival Name} (h : HoldsBefore s n c ks)
    (hn : a.contentName ≠ n) : HoldsBefore (process P s a).2 n c ks := by
  intro last hlast
  rcases lastSeqn_process (P := P) (s := s) (a := a) (fun heq => absurd heq hn) with
    hsame | hnone
  · exact h last (hsame ▸ hlast)
  · rw [hnone] at hlast
    cases hlast

/-- A run that delivers a chain in order forwards every packet of the name. -/
theorem forwards_of_inOrder {xs : List (Arrival Name)} {ks : List ℕ}
    (hkey : s.1.security = ⟨key⟩) (h : HoldsBefore s n c ks) (hks : DeliveredInOrder ks)
    (hxs : (xs.filter fun a => a.contentName = n).map Arrival.hdr =
      ks.map (honestHeader P key n c)) :
    ∀ e ∈ Machine.trace (process P) s xs, e.inp.contentName = n →
      e.out.forwards = true := by
  induction xs generalizing s ks with
  | nil => exact fun e he => absurd he List.not_mem_nil
  | cons a xs ih =>
      have hkey' : (process P s a).2.1.security = ⟨key⟩ := by
        rw [security_process, hkey]
      rw [Machine.trace, List.forall_mem_cons]
      by_cases hn : a.contentName = n
      · subst hn
        rw [List.filter_cons_of_pos (by simp), List.map_cons] at hxs
        cases ks with
        | nil => cases hxs
        | cons k ks =>
            obtain ⟨ha, hrest⟩ := List.cons.inj hxs
            obtain ⟨hpass, hpost⟩ := h.deliver hks hkey ha
            refine ⟨fun _ => forwards_process.trans hpass, ?_⟩
            exact ih hkey' hpost hks.tail hrest
      · rw [List.filter_cons_of_neg (by simpa using hn)] at hxs
        exact ⟨fun heq => absurd heq hn, ih hkey' (h.other hn) hks hxs⟩

/-- **Honest headers.** Under one key, a header `k` cache responses below the
producer's `c`-th header of a name has PH `k`, RHC 0 and SEQN `c + k`, each
modulo 256, and a valid tag. No router with the key drops it as tampered, and
wherever it is weighted the locality term is `(1 - alpha) / (H_max + 1)`. A
chain delivered in order, with at most 127 members skipped in between, to a
router that has seen no other header of the name is never dropped. -/
theorem honest_headers (P : Primitives Name) (key : List UInt8) (n : Name) :
    (∀ c k hdr, Derived P key n c k hdr →
      (hdr.ph.toNat = k % 256 ∧ hdr.rhc = 0 ∧ hdr.seqn.toNat = (c + k) % 256 ∧
        Authentic P key n hdr) ∧
      ∀ (s : RouterPipeline Name × Rng) (a : Arrival Name), s.1.security = ⟨key⟩ →
        a.contentName = n → a.hdr = hdr →
        (process P s a).1.decision ≠ .dropTampering ∧
        (s.1.passes P a = true → ∃ v, (process P s a).1.rate = some v ∧
          (process P s a).2.1.caccCore.lastP = max 0 (min 1
            (s.1.caccCore.alpha * (1 - 1 / (v.effectivePh.toNat *
                s.1.reputation.getTrustScore a.prevHopId + 2)) +
              (1 - s.1.caccCore.alpha) / (s.1.caccCore.maxHops.toNat + 1))))) ∧
    ∀ c chain, ResponseChain P key n c chain →
      ∀ (s : RouterPipeline Name × Rng) (xs : List (Arrival Name)) (ks : List ℕ),
        s.1.security = ⟨key⟩ → s.1.seqCache.lastSeqn n = none → DeliveredInOrder ks →
        (xs.filter fun a => a.contentName = n).map Arrival.hdr = ks.map chain →
        ∀ e ∈ Machine.trace (process P) s xs, e.inp.contentName = n →
          e.out.forwards = true := by
  constructor
  · intro c k hdr h
    have hauth : Authentic P key n hdr := by
      rw [h.eq_honestHeader]
      exact authentic_honestHeader c k
    have hrhc : hdr.rhc = 0 := by
      rw [h.eq_honestHeader]
      rfl
    refine ⟨⟨?_, hrhc, ?_, hauth⟩, ?_⟩
    · rw [h.eq_honestHeader]
      exact UInt8.toNat_ofNat'
    · rw [h.eq_honestHeader]
      exact UInt8.toNat_ofNat'
    · rintro s a hkey rfl rfl
      refine ⟨(decision_of_authentic hkey hauth).1, fun hpass => ?_⟩
      obtain ⟨v, hv, hp, -⟩ := weighted_process hpass
      refine ⟨v, hv, ?_⟩
      have hone : ((0 : UInt8).toNat : ℚ) * s.1.reputation.getTrustScore a.prevHopId + 1 = 1 := by
        simp
      rw [hp, hrhc, hone, CaccCore.probability, mul_one_div]
  · intro c chain hchain s xs ks hkey hnone hks hxs
    have hshape : chain = honestHeader P key n c :=
      funext fun i => (hchain.derived i).eq_honestHeader
    rw [hshape] at hxs
    refine forwards_of_inOrder hkey (fun last hlast => ?_) hks hxs
    rw [hnone] at hlast
    cases hlast

/-- The producer's first header and the one two cache responses below it. -/
theorem honest_headers_sample :
    (honestHeader samplePrimitives sampleKey sampleName 1 2).seqn.toNat = 3 ∧
      ∀ e ∈ Machine.trace (process samplePrimitives) (sampleRouter 1)
          [sampleArrival (honestHeader samplePrimitives sampleKey sampleName 1 0),
            sampleArrival (honestHeader samplePrimitives sampleKey sampleName 1 2)],
        e.inp.contentName = sampleName → e.out.forwards = true := by
  have hchain : ResponseChain samplePrimitives sampleKey sampleName 1
      (honestHeader samplePrimitives sampleKey sampleName 1) := responseChain_honestHeader []
  obtain ⟨hshape, hforwards⟩ := honest_headers samplePrimitives sampleKey sampleName
  refine ⟨(hshape 1 2 _ (hchain.derived 2)).1.2.2.1, ?_⟩
  exact hforwards 1 _ hchain (sampleRouter 1) _ [0, 2] rfl (SeqCache.lastSeqn_new _ _)
    (by decide) rfl

end RouterPipeline
end CaccSecure
