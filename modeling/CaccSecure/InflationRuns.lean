import CaccSecure.PhInflationHook
import CaccSecure.TamperingHooks

/-!
# What scenario S4 measures

S4 raises the PH of a packet and leaves its tag, as S1 does, but it counts the
packets that the routers forward where S1 counts those that they drop. Counted as
S1 counts them, its packets give the complement of its own account: on authentic
traffic S4 reports that none of its packets was detected, and S1 that all were.
-/

namespace CaccSecure
namespace PhInflationScript

open TamperingScript (Stale AllDetected phTamperingAttribution tamperingHook)

variable {ι Name : Type} [DecidableEq Name]

/-- `detectionRate`, in percent. -/
def detectionRate (s : PhInflationScript ι Name) : ℚ :=
  if s.inflated > 0 then
    100 * s.clamped.toNat / s.inflated.toNat
  else 0

/-- The call, with the header that the hook makes of the one it is given. -/
def inflatedCall (x : HookCall ι Name) : TamperedCall ι Name :=
  ⟨x, (inflate x.arrival).hdr⟩

variable [DecidableEq ι] {P : Primitives Name} {key : List UInt8}
  {s : PhInflationScript ι Name} {t : TamperingScript ι Name} {x : HookCall ι Name}

/-- The account of S4 beside that of S1 of the same packets. -/
structure Complements (s : PhInflationScript ι Name) (t : TamperingScript ι Name) :
    Prop where
  fleet : s.fleet = t.fleet
  total : s.packetsTotal = t.packetsTotal
  inflated : s.inflated = t.packetsTampered
  passed : s.clamped + s.undetected = t.packetsFalsePos
  all : t.packetsDetected + t.packetsFalsePos = s.packetsTotal

theorem totals_phInflationHook :
    (phInflationHook P s x).2.packetsTotal = s.packetsTotal + 1 ∧
      (phInflationHook P s x).2.inflated = s.inflated + 1 := by
  simp only [phInflationHook]
  split_ifs <;> exact ⟨rfl, rfl⟩

/-- S1 counts a packet by whether it is forwarded. -/
theorem phTamperingAttribution_process {f : Fleet ι Name} {i : ι} {a : Arrival Name}
    {p : RouterPipeline Name} {hop : UInt32} :
    phTamperingAttribution (f.process P i a).1.decision p hop =
      if (f.process P i a).1.forwards then Attribution.falsePos else Attribution.detected := by
  unfold phTamperingAttribution
  cases hforwards : (f.process P i a).1.forwards with
  | true =>
      rcases Outcome.forwards_iff.mp hforwards with hdecision | hdecision
      all_goals
        rw [hdecision]
        rfl
  | false =>
      have hdropped : (f.process P i a).1.Dropped := by
        rw [Fleet.dropped_iff, ← Fleet.forwards_process]
        exact hforwards
      exact if_pos hdropped

/-- A packet that is forwarded is counted once by S4. -/
theorem passed_phInflationHook :
    (phInflationHook P s x).2.clamped + (phInflationHook P s x).2.undetected =
      if (s.fleet.process P x.pipeline (inflate x.arrival)).1.forwards then
        s.clamped + s.undetected + 1
      else s.clamped + s.undetected := by
  cases hforwards : (s.fleet.process P x.pipeline (inflate x.arrival)).1.forwards with
  | false =>
      obtain ⟨hclamped, hundetected⟩ := counters_of_dropped hforwards
      rw [hclamped, hundetected]
      rfl
  | true =>
      obtain ⟨hclamped, hundetected⟩ := counters_of_forwards hforwards
      rw [hclamped, hundetected, if_pos rfl]
      split_ifs
      · rw [UInt64.add_assoc, UInt64.add_comm 1, ← UInt64.add_assoc]
      · rw [← UInt64.add_assoc]

/-- **Step.** One call keeps the two accounts complementary. -/
theorem Complements.step (h : Complements s t) : Complements (phInflationHook P s x).2
    (tamperingHook P phTamperingAttribution t (inflatedCall x)).2 := by
  obtain ⟨htotal, htampered, hdetected, hfalsePos⟩ :=
    @TamperingScript.counters_tamperingHook _ _ _ _ P phTamperingAttribution t (inflatedCall x)
  obtain ⟨htotal', hinflated'⟩ := totals_phInflationHook (P := P) (s := s) (x := x)
  have hattribution : TamperingScript.attribution P phTamperingAttribution t (inflatedCall x) =
      if (s.fleet.process P x.pipeline (inflate x.arrival)).1.forwards then
        Attribution.falsePos
      else Attribution.detected := by
    rw [TamperingScript.attribution, phTamperingAttribution_process, h.fleet]
    rfl
  rw [hattribution] at hdetected hfalsePos
  have hall := h.all
  refine ⟨?_, ?_, ?_, ?_, ?_⟩
  · rw [fleet_phInflationHook, TamperingScript.fleet_tamperingHook, h.fleet]
    rfl
  · rw [htotal, htotal', h.total]
  · rw [htampered, hinflated', h.inflated]
  · rw [passed_phInflationHook, hfalsePos, h.passed]
    cases (s.fleet.process P x.pipeline (inflate x.arrival)).1.forwards <;> rfl
  · rw [hdetected, hfalsePos, htotal', ← hall]
    cases (s.fleet.process P x.pipeline (inflate x.arrival)).1.forwards with
    | true =>
        show t.packetsDetected + (t.packetsFalsePos + 1) = _
        rw [← UInt64.add_assoc]
    | false =>
        show t.packetsDetected + 1 + t.packetsFalsePos = _
        rw [UInt64.add_assoc, UInt64.add_comm 1, ← UInt64.add_assoc]

/-- **Run.** -/
theorem Complements.run (h : Complements s t) (xs : List (HookCall ι Name)) :
    Complements (Machine.final (phInflationHook P) s xs)
      (Machine.final (tamperingHook P phTamperingAttribution) t (xs.map inflatedCall)) := by
  induction xs generalizing s t with
  | nil => exact h
  | cons x xs ih => exact ih h.step

/-- On stale tags S4 counts nothing. -/
theorem counters_of_stale {xs : List (HookCall ι Name)}
    (hkey : ∀ i, (s.fleet.pipelines i).security = ⟨key⟩)
    (hstale : ∀ x ∈ xs, Stale P key (inflatedCall x)) :
    (Machine.final (phInflationHook P) s xs).clamped = s.clamped ∧
      (Machine.final (phInflationHook P) s xs).undetected = s.undetected := by
  induction xs generalizing s with
  | nil => exact ⟨rfl, rfl⟩
  | cons x xs ih =>
      obtain ⟨hx, hxs⟩ := List.forall_mem_cons.mp hstale
      have hdropped : (s.fleet.process P x.pipeline (inflate x.arrival)).1.Dropped :=
        TamperingScript.dropped_of_stale (s := .start s.fleet) (x := inflatedCall x)
          (hkey x.pipeline) rfl hx
      have hforwards : (s.fleet.process P x.pipeline (inflate x.arrival)).1.forwards =
          false := by
        rw [Fleet.forwards_process]
        exact Fleet.dropped_iff.mp hdropped
      obtain ⟨hclamped, hundetected⟩ := counters_of_dropped hforwards
      have hkey' : ∀ i, ((phInflationHook P s x).2.fleet.pipelines i).security = ⟨key⟩ := by
        intro i
        rw [fleet_phInflationHook, Fleet.security_process, hkey]
      rw [← hclamped, ← hundetected]
      exact ih hkey' hxs

/-- **What S4 measures.** In every run of S4 the pipelines are as if S1 had counted its
packets, and S4 counts exactly the packets that S1 counts as false positives. On
authentic traffic, as long as raising the PH changes the tag, none of them reaches the
rate limiter: S4 reports a detection rate of 0, and S1 of 100 for the same packets. -/
theorem inflation_unnoticed (P : Primitives Name) (key : List UInt8) (fleet : Fleet ι Name)
    (hkey : ∀ i, (fleet.pipelines i).security = ⟨key⟩) (xs : List (HookCall ι Name)) :
    let s := Machine.final (phInflationHook P) (start fleet) xs
    let t := Machine.final (tamperingHook P phTamperingAttribution) (.start fleet)
      (xs.map inflatedCall)
    (s.fleet = t.fleet ∧ s.inflated = t.packetsTampered ∧
      s.clamped + s.undetected = t.packetsFalsePos ∧
      t.packetsDetected + (s.clamped + s.undetected) = s.packetsTotal) ∧
    ((∀ x ∈ xs, Stale P key (inflatedCall x)) →
      s.clamped = 0 ∧ s.undetected = 0 ∧ s.detectionRate = 0 ∧
      (∀ i, (s.fleet.pipelines i).rateLimiter = (fleet.pipelines i).rateLimiter) ∧
      AllDetected (.start fleet) (xs.map inflatedCall) t ∧
      (0 < xs.length → xs.length < 2 ^ 64 → t.detectionRate = 100)) := by
  intro s t
  have hstart : Complements (start fleet) (.start fleet) := ⟨rfl, rfl, rfl, rfl, rfl⟩
  have h : Complements s t := hstart.run xs
  refine ⟨⟨h.fleet, h.inflated, h.passed, h.passed ▸ h.all⟩, fun hstale => ?_⟩
  have hcounters : s.clamped = 0 ∧ s.undetected = 0 :=
    counters_of_stale (s := start fleet) hkey hstale
  have hall : AllDetected (.start fleet) (xs.map inflatedCall) t :=
    .run TamperingScript.countsDrops_ph hkey (List.forall_mem_map.mpr fun _ _ => rfl)
      (List.forall_mem_map.mpr hstale)
  refine ⟨hcounters.1, hcounters.2, ?_, fun i => ?_, hall, fun hpos hlen => ?_⟩
  · rw [detectionRate, hcounters.1]
    simp
  · rw [h.fleet]
    exact (hall.untouched i).2.2.1
  · exact (hall.rates (by rwa [List.length_map]) (by rwa [List.length_map])).1

/-- Three packets of a name, from two hops. -/
theorem inflation_unnoticed_sample :
    let xs : List (HookCall Unit (List UInt8)) :=
      [⟨(), sampleArrival (sampleHeader 0 0 1)⟩,
        ⟨(), { sampleArrival (sampleHeader 0 0 2) with prevHopId := 9 }⟩,
        ⟨(), sampleArrival (sampleHeader 0 0 128)⟩]
    let s := Machine.final (phInflationHook samplePrimitives) (start sampleFleet) xs
    let t := Machine.final (tamperingHook samplePrimitives phTamperingAttribution)
      (.start sampleFleet) (xs.map inflatedCall)
    s.detectionRate = 0 ∧ t.detectionRate = 100 := by
  intro xs s t
  have hstale : ∀ x ∈ xs, Stale samplePrimitives sampleKey (inflatedCall x) := by
    rw [List.forall_mem_cons, List.forall_mem_cons, List.forall_mem_singleton]
    exact ⟨⟨rfl, by decide +kernel⟩, ⟨rfl, by decide +kernel⟩, ⟨rfl, by decide +kernel⟩⟩
  have h := (inflation_unnoticed samplePrimitives sampleKey sampleFleet (fun _ => rfl) xs).2
    hstale
  exact ⟨h.2.2.1, h.2.2.2.2.2 (by decide) (by decide)⟩

end PhInflationScript
end CaccSecure
