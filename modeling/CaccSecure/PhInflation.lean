import CaccSecure.RateHistory
import CaccSecure.RouterPipeline

/-!
# Clamping and popularity

A clamped packet leaves the rate limiter with the PH of the last unclamped one
for its name. That is a lower PH only if the earlier packet had one: the PH of a
name starts at 0 at the producer and wraps at 256 at the caches, and the limiter
does not compare.
-/

namespace CaccSecure

variable {Name : Type} [DecidableEq Name]

namespace RateLimiter

/-- The window of the name is full when the call comes. -/
def WindowFull (r : RateLimiter Name) (x : Call Name) : Prop :=
  r.maxIncrPerWindow.toNat ≤
    (purge r.windowMs (nowMs x.clock) (r.window x.contentName).timestamps).length

instance (r : RateLimiter Name) (x : Call Name) : Decidable (r.WindowFull x) :=
  inferInstanceAs (Decidable (_ ≤ _))

/-- If the window is full, the PH remembered for the name is not above the
incoming one. -/
def ClampLowers (r : RateLimiter Name) (x : Call Name) : Prop :=
  r.WindowFull x → (r.window x.contentName).lastPh ≤ x.ph

variable {r : RateLimiter Name} {x : Call Name}

theorem call_ph_le_iff : (r.call x).1.effectivePh ≤ x.ph ↔ r.ClampLowers x := by
  have hclamped : (r.call x).1.clamped = true ↔ r.WindowFull x := clamped_iff
  rw [effectivePh_call, ClampLowers, ← hclamped]
  split_ifs with hc
  · exact ⟨fun hle _ => hle, fun hle => hle hc⟩
  · exact iff_of_true (UInt8.le_refl _) fun h => absurd h hc

/-- If the window holds the limit of unclamped calls, the PH of the latest one is not
above the incoming one. -/
theorem Remembers.clampLowers_iff {limit windowSeconds : UInt32} {now : ℕ}
    {A : List (Unclamped Name)} (h : Remembers limit windowSeconds now r A)
    (hle : now ≤ reading x) : r.ClampLowers x ↔
      (limit.toNat ≤
          countInWindow x.contentName (windowSeconds.toNat * 1000) (reading x) A →
        latestPh x.contentName A ≤ x.ph) := by
  have hfull : r.WindowFull x ↔ limit.toNat ≤
      countInWindow x.contentName (windowSeconds.toNat * 1000) (reading x) A :=
    RateLimiter.clamped_iff.symm.trans (h.clamped_iff hle)
  rw [ClampLowers, hfull, h.lastPh]

/-- The same of a call after a run in which the clock does not go back. -/
theorem clampLowers_final_iff (limit windowSeconds : UInt32) (ops : List (Op Name))
    (x : Call Name) (hmono : (readings ops).Pairwise (· ≤ ·))
    (hlast : ∀ t ∈ readings ops, t ≤ reading x) :
    let r := Machine.final perform (new limit windowSeconds) ops
    let A := (Machine.trace perform (new limit windowSeconds) ops).foldl unclampedSinceClear []
    r.ClampLowers x ↔
      (limit.toNat ≤
          countInWindow x.contentName (windowSeconds.toNat * 1000) (reading x) A →
        latestPh x.contentName A ≤ x.ph) :=
  (remembers_final (remembers_new limit windowSeconds 0)
    (List.pairwise_cons.mpr ⟨fun t _ => Nat.zero_le t, hmono⟩)).clampLowers_iff
      (getLastD_readings_le hlast)

end RateLimiter

/-- The call that a packet makes to the rate limiter. -/
def Arrival.call (a : Arrival Name) : RateLimiter.Call Name :=
  ⟨a.clock, a.contentName, a.hdr.ph⟩

namespace RouterPipeline

theorem rateVerdict_eq (p : RouterPipeline Name) (a : Arrival Name) :
    p.rateVerdict a = (p.rateLimiter.call a.call).1 := rfl

/-- One packet: its effective PH is not above the PH it carries exactly when,
if it passes the checks, the limiter's clamp does not raise it. -/
theorem effectivePh_process_le_iff {P : Primitives Name} {s : RouterPipeline Name × Rng}
    {a : Arrival Name} :
    (∀ v, (process P s a).1.rate = some v → v.effectivePh ≤ a.hdr.ph) ↔
      (s.1.passes P a = true → s.1.rateLimiter.ClampLowers a.call) := by
  rw [rate_process, ← RateLimiter.call_ph_le_iff, ← rateVerdict_eq]
  cases hpass : s.1.passes P a with
  | true => simp [Arrival.call]
  | false => simp

/-- **When clamping lowers popularity.** For every limiter state and call, the
PH left is not above the PH that came in exactly when, with a full window, the
remembered PH is not above it; after a run in which the clock does not go back,
exactly when, with the limit of unclamped calls in the window, the PH of the latest
one is not above it. A run of `process` never raises a PH exactly when this is so
for every packet that reaches the limiter. -/
theorem never_inflated_iff (P : Primitives Name) :
    (∀ (r : RateLimiter Name) (x : RateLimiter.Call Name),
      (r.call x).1.effectivePh ≤ x.ph ↔ r.ClampLowers x) ∧
    (∀ (limit windowSeconds : UInt32) (ops : List (RateLimiter.Op Name))
        (x : RateLimiter.Call Name), (RateLimiter.readings ops).Pairwise (· ≤ ·) →
      (∀ t ∈ RateLimiter.readings ops, t ≤ RateLimiter.reading x) →
      let r := Machine.final RateLimiter.perform (.new limit windowSeconds) ops
      let A := (Machine.trace RateLimiter.perform (.new limit windowSeconds) ops).foldl
        RateLimiter.unclampedSinceClear []
      ((r.call x).1.effectivePh ≤ x.ph ↔
        (limit.toNat ≤ RateLimiter.countInWindow x.contentName
            (windowSeconds.toNat * 1000) (RateLimiter.reading x) A →
          RateLimiter.latestPh x.contentName A ≤ x.ph))) ∧
    ∀ (s : RouterPipeline Name × Rng) (xs : List (Arrival Name)),
      (∀ e ∈ Machine.trace (process P) s xs, ∀ v, e.out.rate = some v →
        v.effectivePh ≤ e.inp.hdr.ph) ↔
      ∀ e ∈ Machine.trace (process P) s xs, e.pre.1.passes P e.inp = true →
        e.pre.1.rateLimiter.ClampLowers e.inp.call := by
  refine ⟨fun r x => RateLimiter.call_ph_le_iff, ?_, fun s xs => ?_⟩
  · intro limit windowSeconds ops x hmono hlast
    exact RateLimiter.call_ph_le_iff.trans
      (RateLimiter.clampLowers_final_iff limit windowSeconds ops x hmono hlast)
  · apply forall₂_congr
    intro e he
    rw [← effectivePh_process_le_iff, Machine.step_of_mem_trace he]

/-- **The clamp inflates.** After a packet with PH 1 has used up a limit of 1,
a packet with PH 0 leaves the limiter with PH 1. -/
theorem clamp_raises_ph :
    ¬ ∀ s : RouterPipeline (List UInt8) × Rng, Reachable samplePrimitives s →
      ∀ xs, ∀ e ∈ Machine.trace (process samplePrimitives) s xs, ∀ v,
        e.out.rate = some v → v.effectivePh ≤ e.inp.hdr.ph := by
  intro hclaim
  have hle := hclaim (sampleRouter 1) (.new _ _ _ _ _ _ _)
    [sampleArrival (sampleHeader 1 0 2), sampleArrival (sampleHeader 0 0 128)] _
    (List.mem_cons_of_mem _ List.mem_cons_self) ⟨true, 1⟩ (by decide +kernel)
  exact absurd hle (by decide +kernel)

end RouterPipeline
end CaccSecure
