import CaccSecure.Fleet
import CaccSecure.PhInflation

/-!
# Scenario S4: the PH-inflation hook

The hook of `attack-s4-ph-inflation` raises the PH of a packet before it is
processed, and counts a packet that is not dropped as clamped if its pipeline
has clamped any packet so far. That is the packet itself only for the first
clamped packets of a pipeline.
-/

namespace CaccSecure

/-- The globals of the script, and the pipelines it drives. -/
structure PhInflationScript (ι Name : Type) [DecidableEq Name] where
  packetsTotal : UInt64
  inflated : UInt64
  clamped : UInt64
  undetected : UInt64
  inflateCount : Finmap (fun _ : Name => UInt32)
  fleet : Fleet ι Name

namespace PhInflationScript

variable {ι Name : Type} [DecidableEq ι] [DecidableEq Name]

/-- The script before the first call. -/
def start (fleet : Fleet ι Name) : PhInflationScript ι Name :=
  ⟨0, 0, 0, 0, ∅, fleet⟩

/-- The packet with its PH raised by one, modulo 256. -/
def inflate (a : Arrival Name) : Arrival Name :=
  { a with hdr := { a.hdr with ph := a.hdr.ph + 1 } }

/-- The decision on the packet, and the header that the caller gets back. -/
def phInflationHook (P : Primitives Name) (s : PhInflationScript ι Name)
    (x : HookCall ι Name) : (Outcome × CaccHeader) × PhInflationScript ι Name :=
  let s := { s with
    packetsTotal := s.packetsTotal + 1
    inflateCount := s.inflateCount.insert x.arrival.contentName
      ((s.inflateCount.lookup x.arrival.contentName).getD 0 + 1) }
  let a := inflate x.arrival
  let s := { s with inflated := s.inflated + 1 }
  let (outcome, fleet) := s.fleet.process P x.pipeline a
  let s := { s with fleet := fleet }
  if outcome.decision = .forwardOnly ∨ outcome.decision = .cacheAndForward then
    -- the counter of the pipeline, not the verdict on this packet
    if (s.fleet.pipelines x.pipeline).stats.rateLimited > 0 then
      ((outcome, a.hdr), { s with clamped := s.clamped + 1 })
    else ((outcome, a.hdr), { s with undetected := s.undetected + 1 })
  else ((outcome, a.hdr), s)

/-- The outcomes of a run, newest first, after one more call. -/
def outcomes (os : List Outcome)
    (e : Machine.Event (PhInflationScript ι Name) (HookCall ι Name)
      (Outcome × CaccHeader)) : List Outcome :=
  e.out.1 :: os

/-- After the outcomes `os`: as many packets are counted as clamped as the rate
limiters clamped, and the packets not dropped are those counted as clamped and
those counted as undetected. All counters have 64 bits. -/
structure Faithful [Fintype ι] (s : PhInflationScript ι Name) (os : List Outcome) :
    Prop where
  clamped : s.clamped = s.fleet.rateLimited
  rateLimited : s.fleet.rateLimited = .ofNat (os.countP Outcome.rateLimited)
  forwards : s.clamped + s.undetected = .ofNat (os.countP Outcome.forwards)

/-- A packet that passes the checks with its window full meets a counter that
does not wrap, one that passes otherwise a pipeline that has clamped none. -/
def CountsRight (P : Primitives Name) (s : PhInflationScript ι Name)
    (x : HookCall ι Name) : Prop :=
  let p := s.fleet.pipelines x.pipeline
  p.passes P (inflate x.arrival) = true →
    if p.rateLimiter.WindowFull (inflate x.arrival).call then
      p.stats.rateLimited + 1 ≠ 0
    else p.stats.rateLimited = 0

instance (P : Primitives Name) (s : PhInflationScript ι Name) (x : HookCall ι Name) :
    Decidable (CountsRight P s x) := inferInstanceAs (Decidable (_ → _))

variable {P : Primitives Name} {s : PhInflationScript ι Name} {x : HookCall ι Name}
  {os : List Outcome}

/-! ## One call -/

theorem outcome_phInflationHook : (phInflationHook P s x).1.1 =
    (s.fleet.process P x.pipeline (inflate x.arrival)).1 := by
  simp only [phInflationHook]
  split_ifs <;> rfl

theorem fleet_phInflationHook : (phInflationHook P s x).2.fleet =
    (s.fleet.process P x.pipeline (inflate x.arrival)).2 := by
  simp only [phInflationHook]
  split_ifs <;> rfl

/-- A packet that is dropped changes neither counter. -/
theorem counters_of_dropped
    (hdrop : (s.fleet.process P x.pipeline (inflate x.arrival)).1.forwards = false) :
    (phInflationHook P s x).2.clamped = s.clamped ∧
      (phInflationHook P s x).2.undetected = s.undetected := by
  rw [← Bool.not_eq_true, Outcome.forwards_iff] at hdrop
  simp only [phInflationHook]
  rw [if_neg hdrop]
  exact ⟨rfl, rfl⟩

/-- A packet that is not dropped is counted by what the pipeline has clamped. -/
theorem counters_of_forwards
    (hforwards : (s.fleet.process P x.pipeline (inflate x.arrival)).1.forwards = true) :
    let limited := ((s.fleet.pipelines x.pipeline).stats.record
      (s.fleet.process P x.pipeline (inflate x.arrival)).1).rateLimited
    (phInflationHook P s x).2.clamped =
        (if 0 < limited then s.clamped + 1 else s.clamped) ∧
      (phInflationHook P s x).2.undetected =
        if 0 < limited then s.undetected else s.undetected + 1 := by
  rw [Outcome.forwards_iff] at hforwards
  rw [← Fleet.stats_process_self]
  simp only [phInflationHook]
  rw [if_pos hforwards]
  split_ifs
  · exact ⟨rfl, rfl⟩
  · exact ⟨rfl, rfl⟩

theorem rateLimited_outcome_iff {f : Fleet ι Name} {i : ι} {a : Arrival Name} :
    (f.process P i a).1.rateLimited = true ↔
      (f.pipelines i).passes P a = true ∧
        (f.pipelines i).rateLimiter.WindowFull a.call := by
  have hrate : (f.process P i a).1.rate =
      if (f.pipelines i).passes P a then some ((f.pipelines i).rateVerdict a) else none :=
    RouterPipeline.rate_process
  rw [Outcome.rateLimited, Fleet.forwards_process, hrate]
  cases hpass : (f.pipelines i).passes P a with
  | false => simp
  | true =>
      rw [RouterPipeline.rateVerdict_eq]
      simp only [if_true, Option.any_some, Bool.true_and, true_and]
      exact RateLimiter.clamped_iff

/-- The sum and the number of packets not dropped are right after every call. -/
theorem Faithful.of_clamped [Fintype ι] (h : Faithful s os)
    (hclamped : (phInflationHook P s x).2.clamped =
      (phInflationHook P s x).2.fleet.rateLimited) :
    Faithful (phInflationHook P s x).2 ((phInflationHook P s x).1.1 :: os) where
  clamped := hclamped
  rateLimited := by
    rw [fleet_phInflationHook, outcome_phInflationHook, Fleet.rateLimited_process,
      ofNat_countP_cons, h.rateLimited]
  forwards := by
    rw [outcome_phInflationHook, ofNat_countP_cons, ← h.forwards]
    cases hforwards : (s.fleet.process P x.pipeline (inflate x.arrival)).1.forwards with
    | false =>
        obtain ⟨hsame, hsame'⟩ := counters_of_dropped hforwards
        rw [hsame, hsame']
        rfl
    | true =>
        obtain ⟨hclamped, hundetected⟩ := counters_of_forwards hforwards
        rw [hclamped, hundetected, if_pos rfl]
        split_ifs
        · rw [UInt64.add_assoc, UInt64.add_comm 1, ← UInt64.add_assoc]
        · rw [← UInt64.add_assoc]

/-- **Step.** A call keeps the counters faithful exactly when it counts right. -/
theorem Faithful.step_iff [Fintype ι] (h : Faithful s os) :
    Faithful (phInflationHook P s x).2 ((phInflationHook P s x).1.1 :: os) ↔
      CountsRight P s x := by
  have hiff : Faithful (phInflationHook P s x).2 ((phInflationHook P s x).1.1 :: os) ↔
      (phInflationHook P s x).2.clamped = (phInflationHook P s x).2.fleet.rateLimited :=
    ⟨Faithful.clamped, h.of_clamped⟩
  rw [hiff, fleet_phInflationHook, Fleet.rateLimited_process, ← h.clamped]
  have hlimited := rateLimited_outcome_iff (P := P) (f := s.fleet) (i := x.pipeline)
    (a := inflate x.arrival)
  have hpasses := Fleet.forwards_process (P := P) (f := s.fleet) (i := x.pipeline)
    (a := inflate x.arrival)
  cases hforwards : (s.fleet.process P x.pipeline (inflate x.arrival)).1.forwards with
  | false =>
      rw [hforwards] at hpasses
      rw [← hpasses] at hlimited
      simp only [CountsRight, ← hpasses, hlimited, (counters_of_dropped hforwards).1]
      simp
  | true =>
      rw [hforwards] at hpasses
      rw [← hpasses, eq_self, true_and] at hlimited
      rw [(counters_of_forwards hforwards).1]
      simp only [CountsRight, ← hpasses, PipelineStats.record, UInt64.pos_iff_ne_zero,
        hlimited, true_implies]
      split_ifs with hfull hzero hzero
      · exact iff_of_true rfl hzero
      · simpa using hzero
      · simpa using hzero
      · exact iff_of_true rfl (not_not.mp hzero)

/-! ## Runs -/

omit [DecidableEq ι] in
theorem faithful_start [Fintype ι] {fleet : Fleet ι Name} (hf : fleet.Fresh) :
    Faithful (start fleet) [] where
  clamped := (Fleet.rateLimited_of_fresh hf).symm
  rateLimited := Fleet.rateLimited_of_fresh hf
  forwards := rfl

/-- **When the experiment counts clamps right.** For all fresh pipelines and all
calls of the hook, the counters are faithful after every part of the run exactly
when every call counts right: no packet that passes the checks with room in its
window meets a pipeline that has clamped a packet before. -/
theorem clamps_counted_iff [Fintype ι] (P : Primitives Name) (fleet : Fleet ι Name)
    (hf : fleet.Fresh) (xs : List (HookCall ι Name)) :
    (∀ ys, ys <+: xs →
      Faithful (Machine.final (phInflationHook P) (start fleet) ys)
        ((Machine.trace (phInflationHook P) (start fleet) ys).foldl outcomes [])) ↔
    ∀ e ∈ Machine.trace (phInflationHook P) (start fleet) xs,
      CountsRight P e.pre e.inp :=
  Machine.forall_prefix_iff (C := fun e => CountsRight P e.pre e.inp) xs
    (faithful_start hf) fun _ _ _ h => h.step_iff

/-! ## Sample runs -/

/-- A packet whose tag is valid once the hook has raised its PH to 0. -/
def sampleCall (seqn : UInt8) (simNs : Int64) : HookCall Unit (List UInt8) :=
  ⟨(), sampleName, { sampleHeader 0 0 seqn with ph := 255 }, 7, ⟨simNs, 0⟩⟩

/-- Two packets in one minute, of which the second is clamped. -/
theorem clamps_counted_iff_sample :
    Faithful (Machine.final (phInflationHook samplePrimitives) (start sampleFleet)
        [sampleCall 1 1000000000, sampleCall 2 1000000000])
      ((Machine.trace (phInflationHook samplePrimitives) (start sampleFleet)
        [sampleCall 1 1000000000, sampleCall 2 1000000000]).foldl outcomes []) :=
  (clamps_counted_iff samplePrimitives sampleFleet fresh_sampleFleet
    [sampleCall 1 1000000000, sampleCall 2 1000000000]).mpr (by decide +kernel) _
    (List.prefix_refl _)

/-- **An unclamped packet counts as clamped.** The third packet comes after the
window, and finds the second one in the counter of the pipeline. -/
theorem unclamped_counted_as_clamped :
    ¬ ∀ fleet : Fleet Unit (List UInt8), fleet.Fresh → ∀ xs,
      let s := Machine.final (phInflationHook samplePrimitives) (start fleet) xs
      let os := (Machine.trace (phInflationHook samplePrimitives) (start fleet) xs).foldl
        outcomes []
      s.clamped = s.fleet.rateLimited ∧
        s.clamped + s.undetected = .ofNat (os.countP Outcome.forwards) := by
  intro hclaim
  have hclamped := (hclaim sampleFleet fresh_sampleFleet
    [sampleCall 1 1000000000, sampleCall 2 1000000000, sampleCall 128 101000000000]).1
  exact absurd hclamped (by decide +kernel)

end PhInflationScript
end CaccSecure
