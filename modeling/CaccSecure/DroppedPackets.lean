import CaccSecure.RouterPipeline

/-!
# Dropped packets

A packet that is dropped as tampered with or as a replay changes two counters
and the trust of its previous hop. Two runs, one of which lacks some dropped
packets of the other, therefore agree on everything but the trust of the hops
that sent those packets.
-/

namespace CaccSecure

/-- Why a packet was dropped, `none` for a packet that was not. -/
def Outcome.dropReason (o : Outcome) : Option PipelineDecision :=
  match o.decision with
  | .forwardOnly | .cacheAndForward => none
  | reason => some reason

/-- The packet was dropped as tampered with or as a replay. -/
def Outcome.Dropped (o : Outcome) : Prop :=
  o.decision = .dropTampering ∨ o.decision = .dropReplay

instance (o : Outcome) : Decidable o.Dropped :=
  inferInstanceAs (Decidable (_ ∨ _))

namespace RouterPipeline

variable {Name : Type} [DecidableEq Name]

/-- A packet of the full run, marked if the other run lacks it. -/
structure Packet (Name : Type) where
  arrival : Arrival Name
  erased : Bool

def deliver (P : Primitives Name) (s : RouterPipeline Name × Rng)
    (x : Packet Name) : Outcome × (RouterPipeline Name × Rng) :=
  process P s x.arrival

/-- The two states agree on all but the counters, the last values of the caching
decision and the trust of the hops that are not in `hops`. -/
structure Agree (hops : UInt32 → Prop) (s s' : RouterPipeline Name × Rng) : Prop where
  security : s.1.security = s'.1.security
  seqCache : s.1.seqCache = s'.1.seqCache
  rateLimiter : s.1.rateLimiter = s'.1.rateLimiter
  initialTrust : s.1.reputation.initialTrust = s'.1.reputation.initialTrust
  decayFactor : s.1.reputation.decayFactor = s'.1.reputation.decayFactor
  stored : ∀ h, hops h → s.1.reputation.stored h = s'.1.reputation.stored h
  alpha : s.1.caccCore.alpha = s'.1.caccCore.alpha
  maxHops : s.1.caccCore.maxHops = s'.1.caccCore.maxHops
  rng : s.2 = s'.2

variable {P : Primitives Name} {s s' : RouterPipeline Name × Rng}
  {hops : UInt32 → Prop} {a : Arrival Name}

theorem Agree.refl (s : RouterPipeline Name × Rng) : Agree hops s s where
  security := rfl
  seqCache := rfl
  rateLimiter := rfl
  initialTrust := rfl
  decayFactor := rfl
  stored _ _ := rfl
  alpha := rfl
  maxHops := rfl
  rng := rfl

/-- A packet is dropped exactly when it fails a check. -/
theorem dropped_iff : (process P s a).1.Dropped ↔ s.1.passes P a = false := by
  rw [← forwards_process (P := P), ← Bool.not_eq_true, forwards_iff_not_dropped,
    not_and_or, not_not, not_not]
  rfl

theorem passes_of_dropped (h : (process P s a).1.Dropped) : s.1.passes P a = false :=
  dropped_iff.mp h

theorem alpha_process : (process P s a).2.1.caccCore.alpha = s.1.caccCore.alpha := by
  rw [caccCore_process]
  split_ifs <;> rfl

theorem maxHops_process :
    (process P s a).2.1.caccCore.maxHops = s.1.caccCore.maxHops := by
  rw [caccCore_process]
  split_ifs <;> rfl

/-- **Frame.** What a dropped packet changes. -/
theorem process_of_dropped (h : (process P s a).1.Dropped) :
    (process P s a).2 =
      ({ s.1 with
        reputation := s.1.reputation.update a.prevHopId false
        stats := { s.1.stats with
          totalPackets := s.1.stats.totalPackets + 1
          droppedTampering :=
            if (process P s a).1.decision = .dropTampering then
              s.1.stats.droppedTampering + 1
            else s.1.stats.droppedTampering
          droppedReplay :=
            if (process P s a).1.decision = .dropReplay then
              s.1.stats.droppedReplay + 1
            else s.1.stats.droppedReplay } }, s.2) := by
  obtain ⟨p, rng⟩ := s
  have hdrop := passes_of_dropped h
  rcases checks_cases P p a with hc | ⟨hc, hs⟩ | ⟨hc, hs⟩
  · rw [process_tampered hc]
    rfl
  · rw [process_replayed hc hs]
    rfl
  · rw [passes_eq_true_iff.mpr ⟨hc, hs⟩] at hdrop
    cases hdrop

/-- A packet that only the full run sees, from a hop that is not in `hops`. -/
theorem Agree.skip (h : Agree hops s s') (hdrop : (process P s a).1.Dropped)
    (hhop : ¬ hops a.prevHopId) : Agree hops (process P s a).2 s' := by
  rw [process_of_dropped hdrop]
  refine { h with stored := fun hop hsafe => ?_ }
  have hne : hop ≠ a.prevHopId := by
    rintro rfl
    exact hhop hsafe
  rw [ReputationTable.stored_update_of_ne hne, h.stored hop hsafe]

theorem Agree.verifyHmac (h : Agree hops s s') (n : Name) (hdr : CaccHeader) :
    s.1.verifyHmac P n hdr = s'.1.verifyHmac P n hdr := by
  simp only [RouterPipeline.verifyHmac, h.security]

theorem Agree.passes (h : Agree hops s s') : s.1.passes P a = s'.1.passes P a := by
  simp only [RouterPipeline.passes, h.verifyHmac, h.seqCache]

theorem Agree.rateVerdict (h : Agree hops s s') :
    s.1.rateVerdict a = s'.1.rateVerdict a := by
  simp only [RouterPipeline.rateVerdict, h.rateLimiter]

/-- The caching decision depends on the trust of the previous hop alone. -/
theorem Agree.cacheDecision (h : Agree hops s s') (hhop : hops a.prevHopId) :
    (s.1.cacheDecision s.2 a).1 = (s'.1.cacheDecision s'.2 a).1 := by
  have htrust : s.1.reputation.getTrustScore a.prevHopId =
      s'.1.reputation.getTrustScore a.prevHopId := by
    rw [ReputationTable.getTrustScore_eq, ReputationTable.getTrustScore_eq,
      h.stored _ hhop, h.initialTrust]
  have hprob : ∀ x y, s.1.caccCore.probability x y = s'.1.caccCore.probability x y := by
    intro x y
    simp only [CaccCore.probability, h.alpha, h.maxHops]
  simp only [RouterPipeline.cacheDecision, CaccCore.decide, h.rateVerdict, htrust,
    hprob, h.rng]

/-- The checks alone decide whether a packet is dropped, and why. -/
theorem dropReason_process : (RouterPipeline.process P s a).1.dropReason =
    if s.1.verifyHmac P a.contentName a.hdr = false then some .dropTampering
    else if s.1.passes P a = false then some .dropReplay else none := by
  rw [Outcome.dropReason, decision_process]
  split_ifs <;> rfl

theorem Agree.dropReason (h : Agree hops s s') :
    (process P s a).1.dropReason = (process P s' a).1.dropReason := by
  simp only [dropReason_process, h.verifyHmac, h.passes]

theorem Agree.decision (h : Agree hops s s') (hhop : hops a.prevHopId) :
    (process P s a).1.decision = (process P s' a).1.decision := by
  simp only [decision_process, h.verifyHmac, h.passes, h.cacheDecision hhop]

theorem Agree.rate (h : Agree hops s s') :
    (process P s a).1.rate = (process P s' a).1.rate := by
  simp only [rate_process, h.passes, h.rateVerdict]

/-- A packet that both runs see. -/
theorem Agree.process (h : Agree hops s s') :
    Agree hops (process P s a).2 (process P s' a).2 where
  security := by simpa using h.security
  seqCache := by simp only [seqCache_process, h.passes, h.seqCache]
  rateLimiter := by simp only [rateLimiter_process, h.passes, h.rateLimiter]
  initialTrust := by simpa [reputation_process] using h.initialTrust
  decayFactor := by simpa [reputation_process] using h.decayFactor
  alpha := by simpa only [alpha_process] using h.alpha
  maxHops := by simpa only [maxHops_process] using h.maxHops
  rng := by simp only [rng_process, h.passes, h.rng]
  stored := by
    intro hop hsafe
    simp only [reputation_process, h.passes]
    by_cases heq : hop = a.prevHopId
    · subst heq
      rw [ReputationTable.stored_update_self, ReputationTable.stored_update_self,
        h.stored _ hsafe, h.decayFactor]
    · rw [ReputationTable.stored_update_of_ne heq,
        ReputationTable.stored_update_of_ne heq, h.stored hop hsafe]

/-- How an event of the full run and the event of the same packet in the other
run compare, when only hops that are not in `hops` lost packets. -/
structure Matches (hops : UInt32 → Prop)
    (e e' : Machine.Event (RouterPipeline Name × Rng) (Packet Name) Outcome) :
    Prop where
  arrival : e.inp = e'.inp
  dropReason : e.out.dropReason = e'.out.dropReason
  rate : e.out.rate = e'.out.rate
  decision : hops e.inp.arrival.prevHopId → e.out.decision = e'.out.decision

/-- An event that only the full run has. -/
theorem Agree.skip_event {e : Machine.Event (RouterPipeline Name × Rng) (Packet Name)
    Outcome} {xs : List (Packet Name)} (he : e ∈ Machine.trace (deliver P) s xs)
    (hdrop : e.out.Dropped) (hhop : ¬ hops e.inp.arrival.prevHopId)
    (h : Agree hops e.pre s') : Agree hops e.post s' := by
  have hstep : RouterPipeline.process P e.pre e.inp.arrival = (e.out, e.post) :=
    Machine.step_of_mem_trace he
  have hdrop' : (RouterPipeline.process P e.pre e.inp.arrival).1.Dropped := by
    rw [hstep]
    exact hdrop
  have hpost := h.skip hdrop' hhop
  rwa [hstep] at hpost

/-- An event that both runs have. -/
theorem Agree.deliver (h : Agree hops s s') (x : Packet Name) :
    Agree hops (deliver P s x).2 (deliver P s' x).2 ∧
      Matches hops ⟨s, x, (deliver P s x).1, (deliver P s x).2⟩
        ⟨s', x, (deliver P s' x).1, (deliver P s' x).2⟩ :=
  ⟨h.process, rfl, h.dropReason, h.rate, h.decision⟩

/-- **Two runs.** The events of the packets that remain match, and the final
states agree. -/
theorem runs_agree {xs : List (Packet Name)}
    (herased : ∀ e ∈ Machine.trace (deliver P) s xs,
      e.inp.erased = true → e.out.Dropped)
    (hhops : ∀ x ∈ xs, x.erased = true → ¬ hops x.arrival.prevHopId) :
    List.Forall₂ (Matches hops)
        ((Machine.trace (deliver P) s xs).filter fun e => !e.inp.erased)
        (Machine.trace (deliver P) s (xs.filter fun x => !x.erased)) ∧
      Agree hops (Machine.final (deliver P) s xs)
        (Machine.final (deliver P) s (xs.filter fun x => !x.erased)) := by
  refine Machine.forall₂_trace_filter (fun x : Packet Name => !x.erased)
    (Agree.refl s) ?_ fun s s' x hagree => hagree.deliver x
  intro e he hskip s' hagree
  have hmark : e.inp.erased = true := by simpa using hskip
  exact hagree.skip_event he (herased e he hmark)
    (hhops e.inp (Machine.inp_mem_of_mem_trace he) hmark)

/-- **Dropped packets are invisible.** The first part is about every call that
drops its packet, the second about every run and the run that lacks the packets
marked as erased, all of which were dropped. -/
theorem dropped_invisible (P : Primitives Name) (s : RouterPipeline Name × Rng) :
    (∀ a, (process P s a).1.Dropped →
      (process P s a).2.1.seqCache = s.1.seqCache ∧
      (process P s a).2.1.rateLimiter = s.1.rateLimiter ∧
      (process P s a).2.1.caccCore = s.1.caccCore ∧
      (process P s a).2 =
        ({ s.1 with
          reputation := s.1.reputation.update a.prevHopId false
          stats := { s.1.stats with
            totalPackets := s.1.stats.totalPackets + 1
            droppedTampering :=
              if (process P s a).1.decision = .dropTampering then
                s.1.stats.droppedTampering + 1
              else s.1.stats.droppedTampering
            droppedReplay :=
              if (process P s a).1.decision = .dropReplay then
                s.1.stats.droppedReplay + 1
              else s.1.stats.droppedReplay } }, s.2) ∧
      ∀ h, h ≠ a.prevHopId →
        (process P s a).2.1.reputation.stored h = s.1.reputation.stored h) ∧
    ∀ xs : List (Packet Name),
      (∀ e ∈ Machine.trace (deliver P) s xs, e.inp.erased = true → e.out.Dropped) →
      let remaining := xs.filter fun x => !x.erased
      let hops := fun h => ∀ x ∈ xs, x.erased = true → x.arrival.prevHopId ≠ h
      List.Forall₂ (Matches hops)
          ((Machine.trace (deliver P) s xs).filter fun e => !e.inp.erased)
          (Machine.trace (deliver P) s remaining) ∧
        (Machine.final (deliver P) s xs).1.seqCache =
          (Machine.final (deliver P) s remaining).1.seqCache ∧
        (Machine.final (deliver P) s xs).1.rateLimiter =
          (Machine.final (deliver P) s remaining).1.rateLimiter := by
  constructor
  · intro a hdrop
    rw [process_of_dropped hdrop]
    exact ⟨rfl, rfl, rfl, rfl, fun h hne => ReputationTable.stored_update_of_ne hne⟩
  · intro xs herased remaining hops
    have hhops : ∀ x ∈ xs, x.erased = true → ¬ hops x.arrival.prevHopId :=
      fun x hx hmark hsafe => hsafe x hx hmark rfl
    obtain ⟨hevents, hend⟩ := runs_agree herased hhops
    exact ⟨hevents, hend.seqCache, hend.rateLimiter⟩

theorem dropped_invisible_sample :
    let xs : List (Packet (List UInt8)) :=
      [⟨sampleArrival (sampleHeader 0 0 1), false⟩,
        ⟨{ sampleArrival (sampleHeader 0 0 1) with prevHopId := 8 }, true⟩,
        ⟨sampleArrival (sampleHeader 0 0 2), false⟩]
    (Machine.final (deliver samplePrimitives) (sampleRouter 100) xs).1.seqCache =
      (Machine.final (deliver samplePrimitives) (sampleRouter 100)
        (xs.filter fun x => !x.erased)).1.seqCache :=
  ((dropped_invisible samplePrimitives (sampleRouter 100)).2 _
    (by decide +kernel)).2.1

end RouterPipeline
end CaccSecure
