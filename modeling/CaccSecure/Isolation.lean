import CaccSecure.DroppedPackets
import CaccSecure.Producer

/-!
# Isolation of content names

A run of a router against its projection to the packets of one name. As long as
the names of the packets with a valid tag fit into the SEQN cache, nothing is
evicted, and what the router does to the packets of a name depends on these
packets alone.
-/

namespace CaccSecure

/-- What becomes of the packet in the checks and in the rate limiter. -/
def Outcome.verdict (o : Outcome) : Option PipelineDecision × Option RateVerdict :=
  (o.dropReason, o.rate)

variable {Name : Type} [DecidableEq Name]

/-- The names of the packets with a valid tag. -/
def validNames (P : Primitives Name) (key : List UInt8) (xs : List (Arrival Name)) :
    Finset Name :=
  ((xs.filter fun a => Authentic P key a.contentName a.hdr).map Arrival.contentName).toFinset

/-- The same packet at the same time, from any hop. -/
structure SamePacket (a b : Arrival Name) : Prop where
  contentName : b.contentName = a.contentName
  hdr : b.hdr = a.hdr
  clock : b.clock = a.clock

omit [DecidableEq Name] in
theorem SamePacket.refl (a : Arrival Name) : SamePacket a a := ⟨rfl, rfl, rfl⟩

namespace RouterPipeline

/-- The verdicts on the packets of a name in a run. -/
def verdictsOn (n : Name)
    (run : List (Machine.Event (RouterPipeline Name × Rng) (Arrival Name) Outcome)) :
    List (Option PipelineDecision × Option RateVerdict) :=
  (run.filter fun e => e.inp.contentName = n).map fun e => e.out.verdict

/-- The states agree on what they hold about the name `n`, and the first one
tracks names of `S` only. -/
structure Isolated (key : List UInt8) (K : ℕ) (S : Finset Name) (n : Name)
    (s s' : RouterPipeline Name × Rng) : Prop where
  security : s.1.security = ⟨key⟩
  security' : s'.1.security = ⟨key⟩
  capacity : s.1.seqCache.maxTrackedEntries = K
  tracked : ∀ m ∈ s.1.seqCache.names, m ∈ S
  lastSeqn : s.1.seqCache.lastSeqn n = s'.1.seqCache.lastSeqn n
  limit : s.1.rateLimiter.maxIncrPerWindow = s'.1.rateLimiter.maxIncrPerWindow
  windowMs : s.1.rateLimiter.windowMs = s'.1.rateLimiter.windowMs
  window : s.1.rateLimiter.window n = s'.1.rateLimiter.window n

variable {P : Primitives Name} {key : List UInt8} {K : ℕ} {S : Finset Name} {n m : Name}
  {s s' : RouterPipeline Name × Rng} {a b : Arrival Name}

theorem Isolated.new (nodeId nodeId' : UInt32) (rate : UInt32) (alpha : ℚ)
    (maxHops : UInt8) (rng rng' : Rng) :
    Isolated key K S n (.new nodeId key K rate alpha maxHops, rng)
      (.new nodeId' key K rate alpha maxHops, rng') where
  security := rfl
  security' := rfl
  capacity := rfl
  tracked m hm := by cases hm
  lastSeqn := rfl
  limit := rfl
  windowMs := rfl
  window := rfl

/-! ## What a call does to the limiter and the cache -/

theorem window_process_of_ne (hn : n ≠ a.contentName) :
    (process P s a).2.1.rateLimiter.window n = s.1.rateLimiter.window n := by
  rw [rateLimiter_process]
  split_ifs
  · exact RateLimiter.window_checkAndUpdate_of_ne hn
  · rfl

theorem limit_process : (process P s a).2.1.rateLimiter.maxIncrPerWindow =
    s.1.rateLimiter.maxIncrPerWindow := by
  rw [rateLimiter_process]
  split_ifs <;> rfl

theorem windowMs_process : (process P s a).2.1.rateLimiter.windowMs =
    s.1.rateLimiter.windowMs := by
  rw [rateLimiter_process]
  split_ifs <;> rfl

/-- With room for the names of `S`, a packet for another name leaves the SEQN of
`n` alone. -/
theorem Isolated.lastSeqn_process_of_ne (h : Isolated key K S n s s') (hcard : S.card ≤ K)
    (hS : Authentic P key a.contentName a.hdr → a.contentName ∈ S)
    (hn : n ≠ a.contentName) :
    (process P s a).2.1.seqCache.lastSeqn n = s.1.seqCache.lastSeqn n := by
  cases hpass : s.1.passes P a with
  | false => rw [seqCache_of_not_passes hpass]
  | true =>
      have hauth := (verifyHmac_iff_authentic h.security).mp
        (passes_eq_true_iff.mp hpass).1
      have hroom := Recency.room_of_subset (SeqCache.nodup_names _) h.tracked (hS hauth) hcard
      rw [← h.capacity] at hroom
      rw [seqCache_of_passes hpass]
      exact SeqCache.lastSeqn_of_ne_of_room hn hroom

theorem Isolated.tracked_process (h : Isolated key K S n s s')
    (hS : Authentic P key a.contentName a.hdr → a.contentName ∈ S) :
    ∀ m ∈ (process P s a).2.1.seqCache.names, m ∈ S := by
  intro m hm
  rcases mem_names_process hm with hm | ⟨rfl, hpass⟩
  · exact h.tracked m hm
  · exact hS ((verifyHmac_iff_authentic h.security).mp (passes_eq_true_iff.mp hpass).1)

/-! ## One packet -/

/-- A packet for another name, which the projected run lacks. -/
theorem Isolated.skip (h : Isolated key K S n s s') (hcard : S.card ≤ K)
    (hS : Authentic P key a.contentName a.hdr → a.contentName ∈ S)
    (hn : n ≠ a.contentName) : Isolated key K S n (process P s a).2 s' where
  security := security_process.trans h.security
  security' := h.security'
  capacity := maxTrackedEntries_process.trans h.capacity
  tracked := h.tracked_process hS
  lastSeqn := (h.lastSeqn_process_of_ne hcard hS hn).trans h.lastSeqn
  limit := limit_process.trans h.limit
  windowMs := windowMs_process.trans h.windowMs
  window := (window_process_of_ne hn).trans h.window

theorem Isolated.verifyHmac (h : Isolated key K S n s s') (hab : SamePacket a b) :
    s.1.verifyHmac P a.contentName a.hdr = s'.1.verifyHmac P b.contentName b.hdr := by
  simp only [RouterPipeline.verifyHmac, h.security, h.security', hab.contentName, hab.hdr]

/-- Both routers let a packet of the name pass, or neither does. -/
theorem Isolated.passes (h : Isolated key K S a.contentName s s') (hab : SamePacket a b) :
    s.1.passes P a = s'.1.passes P b := by
  rw [Bool.eq_iff_iff, passes_eq_true_iff, passes_eq_true_iff, h.verifyHmac hab,
    SeqCache.validateSequence_fst, SeqCache.validateSequence_fst, h.lastSeqn,
    hab.contentName, hab.hdr]

theorem Isolated.rateVerdict (h : Isolated key K S a.contentName s s')
    (hab : SamePacket a b) : s.1.rateVerdict a = s'.1.rateVerdict b := by
  rw [RouterPipeline.rateVerdict, RouterPipeline.rateVerdict,
    RateLimiter.checkAndUpdate_fst, RateLimiter.checkAndUpdate_fst, h.limit, h.windowMs,
    h.window, hab.contentName, hab.hdr, hab.clock]

theorem Isolated.verdict (h : Isolated key K S a.contentName s s') (hab : SamePacket a b) :
    (process P s a).1.verdict = (process P s' b).1.verdict := by
  have hreason : (process P s a).1.dropReason = (process P s' b).1.dropReason := by
    simp only [dropReason_process, h.verifyHmac hab, h.passes hab]
  have hrate : (process P s a).1.rate = (process P s' b).1.rate := by
    rw [rate_process, rate_process, h.passes hab, h.rateVerdict hab]
  rw [Outcome.verdict, Outcome.verdict, hreason, hrate]

/-- A packet of the name, which both runs have. -/
theorem Isolated.keep (h : Isolated key K S a.contentName s s') (hab : SamePacket a b)
    (hS : Authentic P key a.contentName a.hdr → a.contentName ∈ S) :
    Isolated key K S a.contentName (process P s a).2 (process P s' b).2 where
  security := security_process.trans h.security
  security' := security_process.trans h.security'
  capacity := maxTrackedEntries_process.trans h.capacity
  tracked := h.tracked_process hS
  lastSeqn := by
    cases hpass : s.1.passes P a with
    | true =>
        have hpass' := (h.passes hab).symm.trans hpass
        have hself' := lastSeqn_process_self hpass'
        rw [hab.contentName, hab.hdr] at hself'
        rw [lastSeqn_process_self hpass, hself']
    | false =>
        have hpass' := (h.passes hab).symm.trans hpass
        rw [seqCache_of_not_passes hpass, seqCache_of_not_passes hpass', h.lastSeqn]
  limit := by rw [limit_process, limit_process, h.limit]
  windowMs := by rw [windowMs_process, windowMs_process, h.windowMs]
  window := by
    rw [rateLimiter_process, rateLimiter_process, h.passes hab]
    obtain ⟨n', hdr', hop', clock'⟩ := b
    obtain ⟨rfl, rfl, rfl⟩ := hab
    split_ifs
    · rw [RateLimiter.window_checkAndUpdate_self, RateLimiter.window_checkAndUpdate_self,
        h.limit, h.windowMs, h.window]
    · exact h.window

/-! ## Runs -/

theorem mem_validNames {xs : List (Arrival Name)} (ha : a ∈ xs)
    (hauth : Authentic P key a.contentName a.hdr) : a.contentName ∈ validNames P key xs := by
  apply List.mem_toFinset.mpr
  apply List.mem_map_of_mem
  exact List.mem_filter.mpr ⟨ha, decide_eq_true hauth⟩

/-- **A run and its projection** give the same verdicts on the packets of the
name. -/
theorem verdictsOn_project {xs ys : List (Arrival Name)}
    (hs : Isolated key K (validNames P key xs) n s s')
    (hcard : (validNames P key xs).card ≤ K)
    (hys : List.Forall₂ SamePacket (xs.filter fun a => a.contentName = n) ys) :
    verdictsOn n (Machine.trace (process P) s xs) =
      (Machine.trace (process P) s' ys).map fun e => e.out.verdict := by
  have hS : ∀ e ∈ Machine.trace (process P) s xs,
      Authentic P key e.inp.contentName e.inp.hdr →
        e.inp.contentName ∈ validNames P key xs :=
    fun e he => mem_validNames (Machine.inp_mem_of_mem_trace he)
  have hevents : List.Forall₂ (fun e e' => e.out.verdict = e'.out.verdict)
      ((Machine.trace (process P) s xs).filter fun e => e.inp.contentName = n)
      (Machine.trace (process P) s' ys) := by
    refine (Machine.forall₂_trace_project
      (fun a : Arrival Name => decide (a.contentName = n)) hs hys ?_ ?_).1
    · intro e he hskip t hpre
      have hn : n ≠ e.inp.contentName := fun heq => of_decide_eq_false hskip heq.symm
      have hpost := hpre.skip hcard (hS e he) hn
      rwa [Machine.step_of_mem_trace he] at hpost
    · intro e he hkeep t b hab hpre
      obtain rfl : e.inp.contentName = n := of_decide_eq_true hkeep
      have hpost := hpre.keep hab (hS e he)
      have hverdict := hpre.verdict (P := P) hab
      rw [Machine.step_of_mem_trace he] at hpost hverdict
      exact ⟨hpost, hverdict⟩
  rw [verdictsOn, ← List.forall₂_eq_eq_eq]
  exact List.forall₂_map_left_iff.mpr (List.forall₂_map_right_iff.mpr hevents)

/-- Two interleavings of the same packets have the same names. -/
theorem validNames_subset {xs xs' : List (Arrival Name)}
    (hsame : ∀ n, (xs'.filter fun a => a.contentName = n) =
      xs.filter fun a => a.contentName = n) :
    validNames P key xs' ⊆ validNames P key xs := by
  intro m hm
  obtain ⟨a, ha, rfl⟩ := List.mem_map.mp (List.mem_toFinset.mp hm)
  obtain ⟨hmem, hauth⟩ := List.mem_filter.mp ha
  have hown : a ∈ xs'.filter fun b => b.contentName = a.contentName :=
    List.mem_filter.mpr ⟨hmem, by simp⟩
  rw [hsame] at hown
  exact mem_validNames (List.mem_of_mem_filter hown) (of_decide_eq_true hauth)

/-- **Isolation.** If the packets with a valid tag name at most `K` contents, a
new router with capacity `K` gives the packets of a name the same verdicts as a
router with the same parameters that sees these packets only, from any hops. How
the packets of different names interleave never changes the verdicts. -/
theorem names_isolated (P : Primitives Name) (key : List UInt8) (K : ℕ) (rate : UInt32)
    (alpha : ℚ) (maxHops : UInt8) (xs : List (Arrival Name))
    (hcard : (validNames P key xs).card ≤ K) :
    (∀ n ys, List.Forall₂ SamePacket (xs.filter fun a => a.contentName = n) ys →
      ∀ nodeId nodeId' rng rng',
        verdictsOn n (Machine.trace (process P)
          (.new nodeId key K rate alpha maxHops, rng) xs) =
        (Machine.trace (process P)
          (.new nodeId' key K rate alpha maxHops, rng') ys).map fun e => e.out.verdict) ∧
    ∀ xs', (∀ n, (xs'.filter fun a => a.contentName = n) =
        xs.filter fun a => a.contentName = n) →
      ∀ n nodeId nodeId' rng rng',
        verdictsOn n (Machine.trace (process P)
          (.new nodeId key K rate alpha maxHops, rng) xs) =
        verdictsOn n (Machine.trace (process P)
          (.new nodeId' key K rate alpha maxHops, rng') xs') := by
  constructor
  · intro n ys hys nodeId nodeId' rng rng'
    exact verdictsOn_project (.new nodeId nodeId' rate alpha maxHops rng rng') hcard hys
  · intro xs' hsame n nodeId nodeId' rng rng'
    have hcard' : (validNames P key xs').card ≤ K :=
      (Finset.card_le_card (validNames_subset hsame)).trans hcard
    have hrefl : ∀ l : List (Arrival Name), List.Forall₂ SamePacket l l :=
      fun l => List.forall₂_same.mpr fun a _ => .refl a
    have hs : ∀ (S : Finset Name) (nodeId : UInt32) (rng : Rng), Isolated key K S n
        (.new nodeId key K rate alpha maxHops, rng)
        (.new nodeId' key K rate alpha maxHops, rng') :=
      fun S nodeId rng => .new nodeId nodeId' rate alpha maxHops rng rng'
    -- both runs are compared with the run on the packets of the name
    have hleft := verdictsOn_project (hs _ nodeId rng) hcard
      (hrefl (xs.filter fun a => a.contentName = n))
    have hright := verdictsOn_project (hs _ nodeId' rng') hcard'
      (hrefl (xs'.filter fun a => a.contentName = n))
    rw [hleft, hright, hsame n]

/-- A packet of another name between two packets of the sample name. -/
theorem names_isolated_sample :
    let other : Arrival (List UInt8) :=
      { sampleArrival (sampleHeader 0 0 2) with contentName := [1] }
    verdictsOn sampleName (Machine.trace (process samplePrimitives)
        (.new 1 sampleKey 1 10 (1 / 2) 10, Stream'.const 1)
        [sampleArrival (sampleHeader 0 0 1), other, sampleArrival (sampleHeader 0 0 2)]) =
      (Machine.trace (process samplePrimitives)
        (.new 2 sampleKey 1 10 (1 / 2) 10, Stream'.const 0)
        [sampleArrival (sampleHeader 0 0 1), sampleArrival (sampleHeader 0 0 2)]).map
          fun e => e.out.verdict := by
  intro other
  refine (names_isolated samplePrimitives sampleKey 1 10 (1 / 2) 10 _
    (by decide +kernel)).1 sampleName _ ?_ 1 2 _ _
  exact .cons (.refl _) (.cons (.refl _) .nil)

end RouterPipeline
end CaccSecure
