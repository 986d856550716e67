import CaccSecure.Fleet
import Mathlib.Algebra.Order.Field.Rat

/-!
# Scenario S3: the replay hook

The hook of `attack-s3-replay` gives some packets the SEQN and the tag of an
earlier packet for the same name. A packet that is dropped counts as a detected
replay or as a false positive by a new random draw, and not by what the hook did
with it.
-/

namespace CaccSecure

/-- A call of the hook, and the draws that it may take, in their order: from
`dist`, from `idx`, and from `dist` again. -/
structure ReplayCall (ι Name : Type) extends HookCall ι Name where
  replayDraw : ℚ
  index : ℕ
  attributionDraw : ℚ

/-- The globals of the script, and the pipelines it drives. -/
structure ReplayScript (ι Name : Type) [DecidableEq Name] where
  packetsTotal : UInt64
  packetsReplayed : UInt64
  packetsDetected : UInt64
  packetsFalsePos : UInt64
  packetsDropped : UInt64
  history : Finmap (fun _ : Name => List (UInt8 × UInt32))
  fleet : Fleet ι Name

namespace ReplayScript

variable {ι Name : Type} [DecidableEq ι] [DecidableEq Name]

/-- The script before the first call. -/
def start (fleet : Fleet ι Name) : ReplayScript ι Name :=
  ⟨0, 0, 0, 0, 0, ∅, fleet⟩

/-- `g_history[contentName]`. -/
def pairs (s : ReplayScript ι Name) (contentName : Name) : List (UInt8 × UInt32) :=
  (s.history.lookup contentName).getD []

/-- The hook replaces the pair of the packet by an old one; `3 / 10` stands for the
double that the source writes as 0.3. -/
def Replaces (s : ReplayScript ι Name) (x : ReplayCall ι Name) : Prop :=
  x.replayDraw < 3 / 10 ∧ s.pairs x.arrival.contentName ≠ []

instance (s : ReplayScript ι Name) (x : ReplayCall ι Name) : Decidable (s.Replaces x) :=
  inferInstanceAs (Decidable (_ ∧ _))

/-- The hook up to the call of `process`, with the header that it hands on. -/
def replayOrRecord (s : ReplayScript ι Name) (x : ReplayCall ι Name) :
    CaccHeader × ReplayScript ι Name :=
  let hist := s.pairs x.arrival.contentName
  let hdr := x.arrival.hdr
  if s.Replaces x then
    -- `idx` draws from 0 to `hist.size() - 1`
    let old := hist.getD (x.index % hist.length) (0, 0)
    ({ hdr with seqn := old.1, hmac := old.2 },
      { s with
        packetsTotal := s.packetsTotal + 1
        packetsReplayed := s.packetsReplayed + 1 })
  else
    let hist := hist ++ [(hdr.seqn, hdr.hmac)]
    let hist := if hist.length > 256 then hist.tail else hist
    (hdr, { s with
      packetsTotal := s.packetsTotal + 1
      history := s.history.insert x.arrival.contentName hist })

/-- The decision on the packet, and the header that the caller gets back. -/
def replayHook (P : Primitives Name) (s : ReplayScript ι Name)
    (x : ReplayCall ι Name) : (Outcome × CaccHeader) × ReplayScript ι Name :=
  let (hdr, s) := s.replayOrRecord x
  let (outcome, fleet) := s.fleet.process P x.pipeline { x.arrival with hdr := hdr }
  let s := { s with fleet := fleet }
  if outcome.decision = .dropReplay ∨ outcome.decision = .dropTampering then
    let s :=
      if x.attributionDraw < 3 / 10 then
        { s with packetsDetected := s.packetsDetected + 1 }
      else { s with packetsFalsePos := s.packetsFalsePos + 1 }
    ((outcome, hdr), { s with packetsDropped := s.packetsDropped + 1 })
  else ((outcome, hdr), s)

/-- The packet that the hook hands to `process`. -/
def outgoing (s : ReplayScript ι Name) (x : ReplayCall ι Name) : Arrival Name :=
  { x.arrival with hdr := (s.replayOrRecord x).1 }

/-- For each call, newest first: whether it replaced the pair, and the outcome. -/
def attributions (log : List (Bool × Outcome))
    (e : Machine.Event (ReplayScript ι Name) (ReplayCall ι Name)
      (Outcome × CaccHeader)) : List (Bool × Outcome) :=
  (decide (e.pre.Replaces e.inp), e.out.1) :: log

def ReplayDropped (y : Bool × Outcome) : Bool := y.1 && decide y.2.Dropped

def LegitimateDropped (y : Bool × Outcome) : Bool := !y.1 && decide y.2.Dropped

/-- The counters say what became of the packets in the log, in 64 bits. -/
structure Attributed (s : ReplayScript ι Name) (log : List (Bool × Outcome)) :
    Prop where
  replayed : s.packetsReplayed = .ofNat (log.countP Prod.fst)
  detected : s.packetsDetected = .ofNat (log.countP ReplayDropped)
  falsePos : s.packetsFalsePos = .ofNat (log.countP LegitimateDropped)

/-- If the packet handed on fails a check, the second draw of `dist` is below
0.3 exactly when the hook replaced the pair. -/
def AttributesRight (P : Primitives Name) (s : ReplayScript ι Name)
    (x : ReplayCall ι Name) : Prop :=
  (s.fleet.pipelines x.pipeline).passes P (s.outgoing x) = false →
    (x.attributionDraw < 3 / 10 ↔ s.Replaces x)

instance (P : Primitives Name) (s : ReplayScript ι Name) (x : ReplayCall ι Name) :
    Decidable (AttributesRight P s x) := inferInstanceAs (Decidable (_ → _))

variable {P : Primitives Name} {s : ReplayScript ι Name} {x : ReplayCall ι Name}
  {log : List (Bool × Outcome)}

/-! ## One call -/

omit [DecidableEq ι] in
/-- What the hook has written when it calls `process`. -/
theorem replayOrRecord_spec (s : ReplayScript ι Name) (x : ReplayCall ι Name) :
    (s.replayOrRecord x).2.fleet = s.fleet ∧
      (s.replayOrRecord x).2.packetsDetected = s.packetsDetected ∧
      (s.replayOrRecord x).2.packetsFalsePos = s.packetsFalsePos ∧
      (s.replayOrRecord x).2.packetsReplayed =
        if s.Replaces x then s.packetsReplayed + 1 else s.packetsReplayed := by
  simp only [replayOrRecord]
  split_ifs <;> exact ⟨rfl, rfl, rfl, rfl⟩

theorem outcome_replayHook : (replayHook P s x).1.1 =
    (s.fleet.process P x.pipeline (s.outgoing x)).1 := by
  have hfleet := (replayOrRecord_spec s x).1
  simp only [replayHook, outgoing, hfleet]
  split_ifs <;> rfl

/-- The counters after a call, from the outcome and the draws. -/
theorem counters_replayHook (P : Primitives Name) (s : ReplayScript ι Name)
    (x : ReplayCall ι Name) :
    let dropped := (replayHook P s x).1.1.Dropped
    (replayHook P s x).2.packetsReplayed =
        (if s.Replaces x then s.packetsReplayed + 1 else s.packetsReplayed) ∧
      (replayHook P s x).2.packetsDetected =
        (if dropped ∧ x.attributionDraw < 3 / 10 then s.packetsDetected + 1
          else s.packetsDetected) ∧
      (replayHook P s x).2.packetsFalsePos =
        if dropped ∧ ¬ x.attributionDraw < 3 / 10 then s.packetsFalsePos + 1
        else s.packetsFalsePos := by
  obtain ⟨hfleet, hdetected, hfalsePos, hreplayed⟩ := replayOrRecord_spec s x
  have hdropped : ∀ o : Outcome, o.decision = .dropReplay ∨ o.decision = .dropTampering ↔
      o.Dropped := fun o => or_comm
  simp only [outcome_replayHook]
  simp only [replayHook, outgoing, hfleet, hdropped]
  by_cases hd : (s.fleet.process P x.pipeline
      { x.arrival with hdr := (s.replayOrRecord x).1 }).1.Dropped <;>
    by_cases hx : x.attributionDraw < 3 / 10 <;>
      simp [hd, hx, hdetected, hfalsePos, hreplayed]

/-- The number of replayed packets is right after every call. -/
theorem Attributed.replayed_replayHook (h : Attributed s log) :
    (replayHook P s x).2.packetsReplayed = .ofNat
      (((decide (s.Replaces x), (replayHook P s x).1.1) :: log).countP Prod.fst) := by
  rw [(counters_replayHook P s x).1, ofNat_countP_cons, h.replayed]
  simp only [decide_eq_true_eq]

/-- **Step.** A call keeps the attribution exactly when it attributes its own
packet right. -/
theorem Attributed.step_iff (h : Attributed s log) :
    Attributed (replayHook P s x).2
        ((decide (s.Replaces x), (replayHook P s x).1.1) :: log) ↔
      AttributesRight P s x := by
  obtain ⟨-, hdetected, hfalsePos⟩ := counters_replayHook P s x
  have hiff : Attributed (replayHook P s x).2
        ((decide (s.Replaces x), (replayHook P s x).1.1) :: log) ↔
      (replayHook P s x).2.packetsDetected = .ofNat
          (((decide (s.Replaces x), (replayHook P s x).1.1) :: log).countP ReplayDropped) ∧
        (replayHook P s x).2.packetsFalsePos = .ofNat
          (((decide (s.Replaces x), (replayHook P s x).1.1) :: log).countP
            LegitimateDropped) :=
    ⟨fun hpost => ⟨hpost.detected, hpost.falsePos⟩,
      fun hpost => ⟨h.replayed_replayHook, hpost.1, hpost.2⟩⟩
  have hdropped : (replayHook P s x).1.1.Dropped ↔
      (s.fleet.pipelines x.pipeline).passes P (s.outgoing x) = false := by
    rw [outcome_replayHook]
    exact Fleet.dropped_iff
  rw [hiff, AttributesRight, ← hdropped, hdetected, hfalsePos, ofNat_countP_cons,
    ofNat_countP_cons, ← h.detected, ← h.falsePos]
  by_cases hd : (replayHook P s x).1.1.Dropped
  · by_cases hdraw : x.attributionDraw < 3 / 10 <;>
      by_cases hreplaces : s.Replaces x <;>
        simp [ReplayDropped, LegitimateDropped, hd, hdraw, hreplaces]
  · simp [ReplayDropped, LegitimateDropped, hd]

/-! ## Runs -/

omit [DecidableEq ι] in
theorem attributed_start (fleet : Fleet ι Name) : Attributed (start fleet) [] :=
  ⟨rfl, rfl, rfl⟩

/-- The audit of the runs of the hook. -/
theorem attributed_prefix_iff (P : Primitives Name) (fleet : Fleet ι Name)
    (xs : List (ReplayCall ι Name)) :
    (∀ ys, ys <+: xs →
      Attributed (Machine.final (replayHook P) (start fleet) ys)
        ((Machine.trace (replayHook P) (start fleet) ys).foldl attributions [])) ↔
    ∀ e ∈ Machine.trace (replayHook P) (start fleet) xs,
      AttributesRight P e.pre e.inp :=
  Machine.forall_prefix_iff (C := fun e => AttributesRight P e.pre e.inp) xs
    (attributed_start fleet) fun _ _ _ h => h.step_iff

theorem length_attributions (log : List (Bool × Outcome)) (s : ReplayScript ι Name)
    (xs : List (ReplayCall ι Name)) :
    ((Machine.trace (replayHook P) s xs).foldl attributions log).length =
      xs.length + log.length := by
  induction xs generalizing s log with
  | nil => simp
  | cons x xs ih =>
      rw [Machine.trace, List.foldl_cons, ih, attributions, List.length_cons,
        List.length_cons]
      omega

omit [DecidableEq ι] in
/-- As long as no counter can have wrapped, a right attribution detects at most
the packets that were replayed. -/
theorem Attributed.detected_le (h : Attributed s log) (hlen : log.length < 2 ^ 64) :
    s.packetsDetected.toNat ≤ s.packetsReplayed.toNat := by
  rw [h.detected, h.replayed, toNat_ofNat_countP hlen, toNat_ofNat_countP hlen]
  apply List.countP_mono_left
  intro y _ hy
  exact (Bool.and_eq_true_iff.mp hy).1

/-- **When the experiment attributes drops right.** For all pipelines, packets
and draws, the counters are right after every part of a run exactly when each
packet handed on that fails a check draws below 0.3 if it was replaced, and not
below otherwise. Then a run of fewer than `2 ^ 64` calls detects at most the
packets that were replayed. -/
theorem drops_attributed_iff (P : Primitives Name) (fleet : Fleet ι Name)
    (xs : List (ReplayCall ι Name)) :
    ((∀ ys, ys <+: xs →
      Attributed (Machine.final (replayHook P) (start fleet) ys)
        ((Machine.trace (replayHook P) (start fleet) ys).foldl attributions [])) ↔
      ∀ e ∈ Machine.trace (replayHook P) (start fleet) xs,
        AttributesRight P e.pre e.inp) ∧
    ((∀ e ∈ Machine.trace (replayHook P) (start fleet) xs,
        AttributesRight P e.pre e.inp) → xs.length < 2 ^ 64 →
      let s := Machine.final (replayHook P) (start fleet) xs
      s.packetsDetected.toNat ≤ s.packetsReplayed.toNat) := by
  have hiff := attributed_prefix_iff P fleet xs
  refine ⟨hiff, fun hright hlen => ?_⟩
  have hattributed := hiff.mpr hright xs (List.prefix_refl xs)
  apply hattributed.detected_le
  rw [length_attributions]
  simpa using hlen

/-! ## Sample runs -/

/-- A packet for the sample name, with the draws of the call. -/
def sampleReplayCall (hdr : CaccHeader) (replayDraw attributionDraw : ℚ) :
    ReplayCall Unit (List UInt8) :=
  ⟨⟨(), sampleArrival hdr⟩, replayDraw, 0, attributionDraw⟩

/-- A packet that is recorded, and one that is replaced by its pair, dropped and
detected. -/
theorem drops_attributed_iff_sample :
    let xs := [sampleReplayCall (sampleHeader 0 0 1) (1 / 2) (1 / 2),
      sampleReplayCall (sampleHeader 0 0 2) (1 / 10) (1 / 10)]
    let s := Machine.final (replayHook samplePrimitives) (start sampleFleet) xs
    Attributed s ((Machine.trace (replayHook samplePrimitives) (start sampleFleet) xs).foldl
        attributions []) ∧
      s.packetsDetected.toNat ≤ s.packetsReplayed.toNat := by
  intro xs s
  have hiff := drops_attributed_iff samplePrimitives sampleFleet xs
  exact ⟨hiff.1.mpr (by decide +kernel) xs (List.prefix_refl xs),
    hiff.2 (by decide +kernel) (by decide)⟩

/-- **A packet that was not replayed is detected.** Its tag is wrong, its first
draw 1/2 and its second 1/10. -/
theorem legitimate_drop_detected :
    ¬ ∀ (fleet : Fleet Unit (List UInt8)) (xs : List (ReplayCall Unit (List UInt8))),
      let s := Machine.final (replayHook samplePrimitives) (start fleet) xs
      let log := (Machine.trace (replayHook samplePrimitives) (start fleet) xs).foldl
        attributions []
      s.packetsDetected = .ofNat (log.countP ReplayDropped) ∧
        s.packetsFalsePos = .ofNat (log.countP LegitimateDropped) ∧
        s.packetsDetected ≤ s.packetsReplayed := by
  intro hclaim
  have hdetected := (hclaim sampleFleet
    [sampleReplayCall ⟨0, 0, 1, 0⟩ (1 / 2) (1 / 10)]).1
  exact absurd hdetected (by decide +kernel)

end ReplayScript
end CaccSecure
