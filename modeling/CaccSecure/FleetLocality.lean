import CaccSecure.Fleet
import CaccSecure.Lib.Interleaving

/-!
# Routers decide locally

The pipelines of a fleet share the random draws of their caching decisions and
nothing else. A router therefore does in any traffic what it would do alone on
its own packets: all of it with the draws that it happens to take, and the
security checks, the clamping and the trust with any draws.
-/

namespace CaccSecure

/-- Two states of a router that agree on all that no random draw decides. -/
structure RouterPipeline.AgreeOnSecurity {Name : Type} [DecidableEq Name]
    (p p' : RouterPipeline Name) : Prop where
  security : p.security = p'.security
  seqCache : p.seqCache = p'.seqCache
  rateLimiter : p.rateLimiter = p'.rateLimiter
  reputation : p.reputation = p'.reputation
  totalPackets : p.stats.totalPackets = p'.stats.totalPackets
  forwarded : p.stats.forwarded = p'.stats.forwarded
  droppedTampering : p.stats.droppedTampering = p'.stats.droppedTampering
  droppedReplay : p.stats.droppedReplay = p'.stats.droppedReplay
  rateLimited : p.stats.rateLimited = p'.stats.rateLimited

/-- The outcomes agree on whether and why the packet is dropped, and on the
verdict of the rate limiter. -/
def Outcome.SameSecurity (o o' : Outcome) : Prop :=
  o.dropReason = o'.dropReason ∧ o.rate = o'.rate

namespace RouterPipeline

variable {Name : Type} [DecidableEq Name] {P : Primitives Name}
  {p p' : RouterPipeline Name} {rng rng' : Rng} {a : Arrival Name}

theorem AgreeOnSecurity.refl (p : RouterPipeline Name) : p.AgreeOnSecurity p :=
  ⟨rfl, rfl, rfl, rfl, rfl, rfl, rfl, rfl, rfl⟩

theorem AgreeOnSecurity.verifyHmac (h : p.AgreeOnSecurity p') (n : Name)
    (hdr : CaccHeader) : p.verifyHmac P n hdr = p'.verifyHmac P n hdr := by
  simp only [RouterPipeline.verifyHmac, h.security]

theorem AgreeOnSecurity.passes (h : p.AgreeOnSecurity p') :
    p.passes P a = p'.passes P a := by
  simp only [RouterPipeline.passes, h.verifyHmac, h.seqCache]

theorem AgreeOnSecurity.rateVerdict (h : p.AgreeOnSecurity p') :
    p.rateVerdict a = p'.rateVerdict a := by
  simp only [RouterPipeline.rateVerdict, h.rateLimiter]

/-- The draws decide nothing about a packet but whether it is cached. -/
theorem AgreeOnSecurity.out (h : p.AgreeOnSecurity p') :
    (process P (p, rng) a).1.SameSecurity (process P (p', rng') a).1 := by
  constructor
  · simp only [dropReason_process, h.verifyHmac, h.passes]
  · simp only [rate_process, h.passes, h.rateVerdict]

theorem AgreeOnSecurity.tallied (h : p.AgreeOnSecurity p') (rng rng' : Rng)
    (P : Primitives Name) (a : Arrival Name) :
    (process P (p, rng) a).1.forwards = (process P (p', rng') a).1.forwards ∧
      (process P (p, rng) a).1.tampered = (process P (p', rng') a).1.tampered ∧
      (process P (p, rng) a).1.replayed = (process P (p', rng') a).1.replayed ∧
      (process P (p, rng) a).1.rateLimited = (process P (p', rng') a).1.rateLimited := by
  obtain ⟨hreason, hrate⟩ : (process P (p, rng) a).1.SameSecurity
      (process P (p', rng') a).1 := h.out
  have hforwards : (process P (p, rng) a).1.forwards =
      (process P (p', rng') a).1.forwards := by
    rw [forwards_process, forwards_process, h.passes]
  simp only [Outcome.dropReason] at hreason
  refine ⟨hforwards, ?_, ?_, ?_⟩
  · simp only [Outcome.tampered]
    split at hreason <;> split at hreason <;> simp_all
  · simp only [Outcome.replayed]
    split at hreason <;> split at hreason <;> simp_all
  · simp only [Outcome.rateLimited, hforwards, hrate]

theorem AgreeOnSecurity.process (h : p.AgreeOnSecurity p') :
    (process P (p, rng) a).2.1.AgreeOnSecurity (process P (p', rng') a).2.1 := by
  obtain ⟨hforwards, htampered, hreplayed, hlimited⟩ := h.tallied rng rng' P a
  refine ⟨?_, ?_, ?_, ?_, ?_, ?_, ?_, ?_, ?_⟩
  · rw [security_process, security_process, h.security]
  · simp only [seqCache_process, h.passes, h.seqCache]
  · simp only [rateLimiter_process, h.passes, h.rateLimiter]
  · simp only [reputation_process, h.passes, h.reputation]
  · simp only [stats_process, PipelineStats.record, h.totalPackets]
  · simp only [stats_process, PipelineStats.record, h.forwarded, hforwards]
  · simp only [stats_process, PipelineStats.record, h.droppedTampering, htampered]
  · simp only [stats_process, PipelineStats.record, h.droppedReplay, hreplayed]
  · simp only [stats_process, PipelineStats.record, h.rateLimited, hlimited]

/-- A packet that fails a check takes no draw, one that passes takes the first. -/
theorem frugal_process (P : Primitives Name) :
    Interleaving.Frugal (process P : RouterPipeline Name × Rng → _) := by
  intro p a
  rcases checks_cases P p a with h | ⟨h, hs⟩ | ⟨h, hs⟩
  · exact Or.inl ⟨_, _, fun rng => process_tampered h⟩
  · exact Or.inl ⟨_, _, fun rng => process_replayed h hs⟩
  · refine Or.inr ⟨fun draw => ((RouterPipeline.process P (p, Stream'.const draw) a).1,
      (RouterPipeline.process P (p, Stream'.const draw) a).2.1), fun rng => ?_⟩
    simp only [process_passed h hs]
    rfl

end RouterPipeline

namespace Fleet

variable {ι Name : Type} [DecidableEq ι] [DecidableEq Name]

/-- A call as an input of the fleet. -/
def call (P : Primitives Name) (f : Fleet ι Name) (x : HookCall ι Name) :
    Outcome × Fleet ι Name :=
  f.process P x.pipeline x.arrival

/-- The packets of one router, in order. -/
def arrivalsAt (i : ι) (xs : List (HookCall ι Name)) : List (Arrival Name) :=
  Interleaving.inputsOf HookCall.pipeline HookCall.arrival i xs

/-- The outcomes of one router, in order. -/
def outcomesAt (i : ι)
    (run : List (Machine.Event (Fleet ι Name) (HookCall ι Name) Outcome)) : List Outcome :=
  Interleaving.outputsOf HookCall.pipeline i run

theorem bank_call (P : Primitives Name) :
    Interleaving.Bank (call P : Fleet ι Name → _) (RouterPipeline.process P)
      HookCall.pipeline HookCall.arrival Fleet.pipelines Fleet.rng where
  own f x := by
    simp only [call, process, Function.update_self]
  other f x i hi := by
    simp only [call, process, Function.update_of_ne hi]

/-- **Routers decide locally.** In every run of a fleet, with the packets of all
routers in any order, each router has exactly the outcomes and the state that
some random draws give it alone on its own packets. Any draws at all give it the
same drop reasons and rate verdicts, SEQN cache, rate limiter and trust, and the
same counters but the number of cached packets. -/
theorem routers_decide_locally (P : Primitives Name) (f : Fleet ι Name) (i : ι)
    (xs : List (HookCall ι Name)) :
    let outs := outcomesAt i (Machine.trace (call P) f xs)
    let post := (Machine.final (call P) f xs).pipelines i
    (∃ rng, (Machine.trace (RouterPipeline.process P) (f.pipelines i, rng)
          (arrivalsAt i xs)).map Machine.Event.out = outs ∧
      (Machine.final (RouterPipeline.process P) (f.pipelines i, rng)
        (arrivalsAt i xs)).1 = post) ∧
    ∀ rng, List.Forall₂ Outcome.SameSecurity outs
        ((Machine.trace (RouterPipeline.process P) (f.pipelines i, rng)
          (arrivalsAt i xs)).map Machine.Event.out) ∧
      post.AgreeOnSecurity (Machine.final (RouterPipeline.process P) (f.pipelines i, rng)
        (arrivalsAt i xs)).1 := by
  intro outs post
  refine ⟨(bank_call P).project (RouterPipeline.frugal_process P) i f xs, fun rng => ?_⟩
  exact (bank_call P).project_blind (RouterPipeline.frugal_process P)
    (fun _ _ _ _ _ h => ⟨h.process, h.out⟩) RouterPipeline.AgreeOnSecurity.refl i f xs rng

end Fleet
end CaccSecure
