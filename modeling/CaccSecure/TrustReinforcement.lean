import CaccSecure.RouterPipeline

/-!
# Which packets reinforce trust

The pipeline reinforces the previous hop of every packet that it does not drop.
A packet whose PH the rate limiter clamps is not dropped, and is reinforced
like one that passed all checks.
-/

namespace CaccSecure
namespace RouterPipeline

variable {Name : Type} [DecidableEq Name]

/-- The packet passes all three checks: its HMAC matches, its SEQN is accepted
and the rate limiter does not clamp its PH. -/
def PassesAll (P : Primitives Name) (p : RouterPipeline Name) (a : Arrival Name) :
    Prop :=
  p.verifyHmac P a.contentName a.hdr = true ∧
    (p.seqCache.validateSequence a.contentName a.hdr.seqn).1 = true ∧
    (p.rateVerdict a).clamped = false

/-- Processing the packet raises the trust of the hop. -/
def RaisesTrust (P : Primitives Name) (s : RouterPipeline Name × Rng)
    (a : Arrival Name) (hop : UInt32) : Prop :=
  s.1.reputation.getTrustScore hop < (process P s a).2.1.reputation.getTrustScore hop

/-- An authentic packet with a fresh SEQN, for a name whose window is still full
after the purge. -/
def FloodsWindow (P : Primitives Name) (p : RouterPipeline Name) (a : Arrival Name) :
    Prop :=
  p.verifyHmac P a.contentName a.hdr = true ∧
    (∀ last, p.seqCache.lastSeqn a.contentName = some last →
      SeqCache.Fresh last a.hdr.seqn) ∧
    p.rateLimiter.maxIncrPerWindow.toNat ≤
      (RateLimiter.purge p.rateLimiter.windowMs (nowMs a.clock)
        (p.rateLimiter.window a.contentName).timestamps).length

variable {P : Primitives Name} {s : RouterPipeline Name × Rng} {a : Arrival Name}
  {hop : UInt32} {x : ℚ}

/-- A packet that passes the checks for drops passes all of them, or floods its
window. -/
theorem passes_iff : s.1.passes P a = true ↔
    PassesAll P s.1 a ∨ FloodsWindow P s.1 a := by
  have hclamped : (s.1.rateVerdict a).clamped = true ↔ _ := RateLimiter.clamped_iff
  rw [passes_eq_true_iff, PassesAll, FloodsWindow, ← SeqCache.validateSequence_fst,
    ← hclamped]
  cases (s.1.rateVerdict a).clamped <;> simp

theorem not_passesAll_of_floods (h : FloodsWindow P s.1 a) : ¬ PassesAll P s.1 a := by
  rintro ⟨-, -, hfree⟩
  obtain ⟨-, -, hfull⟩ := h
  have hclamped : (s.1.rateVerdict a).clamped = true :=
    RateLimiter.clamped_iff.mpr hfull
  rw [hclamped] at hfree
  cases hfree

/-- Of the hops with a stored trust, a packet raises its previous hop's, and
only if it is not dropped. -/
theorem raisesTrust_iff (hreach : Reachable P s)
    (hx : s.1.reputation.stored hop = some x) :
    RaisesTrust P s a hop ↔ a.prevHopId = hop ∧ s.1.passes P a = true := by
  obtain ⟨hdecay, hbounded⟩ := hreach.reputation
  obtain ⟨hx0, hx1⟩ := hbounded hop x hx
  rw [RaisesTrust, reputation_process]
  by_cases hhop : a.prevHopId = hop
  · subst hhop
    have hafter : (s.1.reputation.update a.prevHopId (s.1.passes P a)).stored
        a.prevHopId = some (ReputationTable.decayed (9 / 10) x (s.1.passes P a)) := by
      rw [ReputationTable.stored_update_self, hx, Option.getD_some, hdecay]
    rw [ReputationTable.getTrustScore_of_stored hx,
      ReputationTable.getTrustScore_of_stored hafter]
    cases s.1.passes P a with
    | true =>
        have hup := ReputationTable.lt_decayed_true (d := 9 / 10) (by norm_num)
          (by norm_num) hx0 hx1
        simpa using hup
    | false =>
        have hdown := ReputationTable.decayed_false_le (d := 9 / 10) (by norm_num)
          (by norm_num) hx0 hx1.le
        simpa using hdown
  · rw [ReputationTable.getTrustScore_update_of_ne (Ne.symm hhop)]
    simp [hhop]

/-- A hop keeps its stored trust, if with another value. -/
theorem stored_process_isSome (h : (s.1.reputation.stored hop).isSome) :
    ((process P s a).2.1.reputation.stored hop).isSome := by
  rw [reputation_process]
  by_cases hhop : hop = a.prevHopId
  · rw [hhop, ReputationTable.stored_update_self]
    rfl
  · rwa [ReputationTable.stored_update_of_ne hhop]

/-- **When reinforcement is earned.** For a reachable state and a previous hop
with a stored trust, a packet that raises it has passed all three checks,
exactly unless it floods its window. In a run in which no packet of a hop does,
and all of them fail a check, the hop never gains trust. -/
theorem reinforced_iff (P : Primitives Name) (s : RouterPipeline Name × Rng)
    (hreach : Reachable P s) :
    (∀ a, (s.1.reputation.stored a.prevHopId).isSome →
      ((RaisesTrust P s a a.prevHopId → PassesAll P s.1 a) ↔
        ¬ FloodsWindow P s.1 a)) ∧
    ∀ xs hop, (s.1.reputation.stored hop).isSome →
      (∀ e ∈ Machine.trace (process P) s xs, e.inp.prevHopId = hop →
        ¬ FloodsWindow P e.pre.1 e.inp) →
      (∀ e ∈ Machine.trace (process P) s xs, e.inp.prevHopId = hop →
        ¬ PassesAll P e.pre.1 e.inp) →
      (Machine.final (process P) s xs).1.reputation.getTrustScore hop ≤
        s.1.reputation.getTrustScore hop := by
  constructor
  · intro a hstored
    obtain ⟨x, hx⟩ := Option.isSome_iff_exists.mp hstored
    rw [raisesTrust_iff hreach hx, passes_iff]
    constructor
    · exact fun h hflood =>
        not_passesAll_of_floods hflood (h ⟨rfl, Or.inr hflood⟩)
    · exact fun hno h => h.2.resolve_right hno
  · intro xs hop hstored hno hbad
    refine (Machine.final_of_events (I := fun s' => Reachable P s' ∧
      (s'.1.reputation.stored hop).isSome ∧
      s'.1.reputation.getTrustScore hop ≤ s.1.reputation.getTrustScore hop)
      ⟨hreach, hstored, le_refl _⟩ ?_).2.2
    rintro e he ⟨hpre, hsome, hle⟩
    have hstep := Machine.step_of_mem_trace he
    have hpost := hpre.process e.inp
    have hsome' := stored_process_isSome (P := P) (a := e.inp) hsome
    obtain ⟨x, hx⟩ := Option.isSome_iff_exists.mp hsome
    have hflat : ¬ RaisesTrust P e.pre e.inp hop := by
      rw [raisesTrust_iff hpre hx, passes_iff]
      rintro ⟨hhop, hpass | hflood⟩
      · exact hbad e he hhop hpass
      · exact hno e he hhop hflood
    rw [RaisesTrust, not_lt] at hflat
    rw [hstep] at hpost hsome' hflat
    exact ⟨hpost, hsome', hflat.trans hle⟩

/-- The router with a limit of 1 after one packet from hop 7. -/
def sampleFlooded : RouterPipeline (List UInt8) × Rng :=
  (process samplePrimitives (sampleRouter 1) (sampleArrival (sampleHeader 0 0 1))).2

theorem reinforced_iff_sample :
    (RaisesTrust samplePrimitives sampleFlooded (sampleArrival (sampleHeader 0 0 1)) 7 →
      PassesAll samplePrimitives sampleFlooded.1 (sampleArrival (sampleHeader 0 0 1))) ↔
    ¬ FloodsWindow samplePrimitives sampleFlooded.1
      (sampleArrival (sampleHeader 0 0 1)) :=
  (reinforced_iff samplePrimitives sampleFlooded
    ((Reachable.new _ _ _ _ _ _ _).process _)).1 (sampleArrival (sampleHeader 0 0 1))
    (by decide +kernel)

/-- **Reinforced while clamped.** The second packet of hop 7 is clamped, and its
trust rises from 1/10 to 19/100. -/
theorem clamped_reinforced :
    ¬ ∀ (P : Primitives (List UInt8)) (s : RouterPipeline (List UInt8) × Rng)
      (a : Arrival (List UInt8)), Reachable P s →
      (s.1.reputation.stored a.prevHopId).isSome →
      RaisesTrust P s a a.prevHopId → PassesAll P s.1 a := by
  intro hclaim
  have hraised : RaisesTrust samplePrimitives sampleFlooded
      (sampleArrival (sampleHeader 0 0 2)) 7 := by
    unfold RaisesTrust
    decide +kernel
  have hpasses := hclaim samplePrimitives sampleFlooded
    (sampleArrival (sampleHeader 0 0 2)) ((Reachable.new _ _ _ _ _ _ _).process _)
    (by decide +kernel) hraised
  obtain ⟨-, -, hfree⟩ := hpasses
  exact absurd hfree (by decide +kernel)

end RouterPipeline
end CaccSecure
