import CaccSecure.Fleet
import CaccSecure.Producer

/-!
# Scenarios S1, S2 and S5: hooks that tamper with the header

The hooks of `attack-s1-ph-tampering`, `attack-s2-rhc-tampering` and
`attack-s5-byzantine` change a field of the header, process the packet and count
it. None of them computes a new tag: where S1 and S2 ask whether the attacker has
the key, the branch is empty.
-/

namespace CaccSecure

/-- What a script counts a processed packet as. -/
inductive Attribution where
  | detected
  | falsePos
  | uncounted
deriving DecidableEq

/-- The globals of the script, and the pipelines it drives. -/
structure TamperingScript (ι Name : Type) [DecidableEq Name] where
  packetsTotal : UInt64
  packetsTampered : UInt64
  packetsDetected : UInt64
  packetsFalsePos : UInt64
  fleet : Fleet ι Name

/-- A call of a hook, with the header that the hook makes of the one it is given. -/
structure TamperedCall (ι Name : Type) extends HookCall ι Name where
  tampered : CaccHeader

/-- A call of the hook of S2, and the draw that it takes. -/
structure RhcTamperingCall (ι Name : Type) extends HookCall ι Name where
  draw : ℕ

variable {ι Name : Type} [DecidableEq ι] [DecidableEq Name]

/-- How a packet counts, from the decision, the pipeline behind it and the
previous hop. -/
abbrev Classifier (Name : Type) [DecidableEq Name] :=
  PipelineDecision → RouterPipeline Name → UInt32 → Attribution

/-- The packet that the hook hands to `process`. -/
def TamperedCall.outgoing (x : TamperedCall ι Name) : Arrival Name :=
  { x.arrival with hdr := x.tampered }

namespace TamperingScript

/-- The script before the first call. -/
def start (fleet : Fleet ι Name) : TamperingScript ι Name := ⟨0, 0, 0, 0, fleet⟩

def count (s : TamperingScript ι Name) : Attribution → TamperingScript ι Name
  | .detected => { s with packetsDetected := s.packetsDetected + 1 }
  | .falsePos => { s with packetsFalsePos := s.packetsFalsePos + 1 }
  | .uncounted => s

/-- What the three hooks share. -/
def tamperingHook (P : Primitives Name) (classify : Classifier Name)
    (s : TamperingScript ι Name) (x : TamperedCall ι Name) :
    (Outcome × CaccHeader) × TamperingScript ι Name :=
  let s := { s with packetsTotal := s.packetsTotal + 1 }
  let s := { s with packetsTampered := s.packetsTampered + 1 }
  let (outcome, fleet) := s.fleet.process P x.pipeline x.outgoing
  let s := { s with fleet := fleet }
  let attribution := classify outcome.decision (s.fleet.pipelines x.pipeline)
    x.arrival.prevHopId
  ((outcome, x.tampered), s.count attribution)

/-- S1 counts what it names. -/
def phTamperingAttribution (decision : PipelineDecision) (_ : RouterPipeline Name)
    (_ : UInt32) : Attribution :=
  if decision = .dropTampering ∨ decision = .dropReplay then .detected
  else if decision = .forwardOnly ∨ decision = .cacheAndForward then .falsePos
  else .uncounted

/-- S2 counts all the rest as undetected. -/
def rhcTamperingAttribution (decision : PipelineDecision) (_ : RouterPipeline Name)
    (_ : UInt32) : Attribution :=
  if decision = .dropTampering ∨ decision = .dropReplay then .detected else .falsePos

/-- S5 also looks at the trust of the hop, after the packet. -/
def byzantineAttribution (decision : PipelineDecision) (p : RouterPipeline Name)
    (prevHopId : UInt32) : Attribution :=
  if decision = .dropTampering ∨ decision = .dropReplay then .detected
  else if p.reputation.getTrustScore prevHopId < 3 / 10 then .detected
  else .falsePos

/-- The header with 50 added to its PH, modulo 256. -/
def tamperPh (hdr : CaccHeader) : CaccHeader := { hdr with ph := hdr.ph + 50 }

/-- The header with an RHC drawn from 1 to `2 * maxHops`, cut to a byte. -/
def tamperRhc (maxHops : UInt8) (draw : ℕ) (hdr : CaccHeader) : CaccHeader :=
  { hdr with rhc := UInt8.ofNat (1 + draw % (2 * maxHops.toNat)) }

/-- The header with 10 added to its PH, modulo 256. -/
def tamperByzantine (hdr : CaccHeader) : CaccHeader := { hdr with ph := hdr.ph + 10 }

def phTamperingCall (x : HookCall ι Name) : TamperedCall ι Name :=
  ⟨x, tamperPh x.arrival.hdr⟩

def rhcTamperingCall (maxHops : UInt8) (x : RhcTamperingCall ι Name) :
    TamperedCall ι Name :=
  ⟨x.toHookCall, tamperRhc maxHops x.draw x.arrival.hdr⟩

def byzantineCall (x : HookCall ι Name) : TamperedCall ι Name :=
  ⟨x, tamperByzantine x.arrival.hdr⟩

/-- The hook of S1; nothing is done for an attacker with the key. -/
def phTamperingHook (P : Primitives Name) (_hasKey : Bool) (s : TamperingScript ι Name)
    (x : HookCall ι Name) : (Outcome × CaccHeader) × TamperingScript ι Name :=
  tamperingHook P phTamperingAttribution s (phTamperingCall x)

/-- The hook of S2; nothing is done for an attacker with the key. -/
def rhcTamperingHook (P : Primitives Name) (_hasKey : Bool) (maxHops : UInt8)
    (s : TamperingScript ι Name) (x : RhcTamperingCall ι Name) :
    (Outcome × CaccHeader) × TamperingScript ι Name :=
  tamperingHook P rhcTamperingAttribution s (rhcTamperingCall maxHops x)

/-- The hook of S5. -/
def byzantineHook (P : Primitives Name) (s : TamperingScript ι Name)
    (x : HookCall ι Name) : (Outcome × CaccHeader) × TamperingScript ι Name :=
  tamperingHook P byzantineAttribution s (byzantineCall x)

/-- `detectionRate`, in percent. -/
def detectionRate (s : TamperingScript ι Name) : ℚ :=
  if s.packetsTampered > 0 then
    100 * s.packetsDetected.toNat / s.packetsTampered.toNat
  else 0

def falsePositiveRate (s : TamperingScript ι Name) : ℚ :=
  if s.packetsTampered > 0 then
    100 * s.packetsFalsePos.toNat / s.packetsTampered.toNat
  else 0

variable {P : Primitives Name} {classify : Classifier Name}
  {s : TamperingScript ι Name} {x : TamperedCall ι Name}

/-! ## One call -/

omit [DecidableEq ι] in
theorem fleet_count (s : TamperingScript ι Name) (a : Attribution) :
    (s.count a).fleet = s.fleet := by
  cases a <;> rfl

theorem fleet_tamperingHook : (tamperingHook P classify s x).2.fleet =
    (s.fleet.process P x.pipeline x.outgoing).2 := fleet_count _ _

/-- How the packet counts. -/
def attribution (P : Primitives Name) (classify : Classifier Name)
    (s : TamperingScript ι Name) (x : TamperedCall ι Name) : Attribution :=
  classify (s.fleet.process P x.pipeline x.outgoing).1.decision
    ((s.fleet.process P x.pipeline x.outgoing).2.pipelines x.pipeline) x.arrival.prevHopId

omit [DecidableEq ι] in
theorem counters_count (s : TamperingScript ι Name) (a : Attribution) :
    (s.count a).packetsTotal = s.packetsTotal ∧
      (s.count a).packetsTampered = s.packetsTampered ∧
      (s.count a).packetsDetected =
        (if a = .detected then s.packetsDetected + 1 else s.packetsDetected) ∧
      (s.count a).packetsFalsePos =
        if a = .falsePos then s.packetsFalsePos + 1 else s.packetsFalsePos := by
  cases a <;> exact ⟨rfl, rfl, rfl, rfl⟩

theorem counters_tamperingHook :
    (tamperingHook P classify s x).2.packetsTotal = s.packetsTotal + 1 ∧
      (tamperingHook P classify s x).2.packetsTampered = s.packetsTampered + 1 ∧
      (tamperingHook P classify s x).2.packetsDetected =
        (if attribution P classify s x = .detected then s.packetsDetected + 1
          else s.packetsDetected) ∧
      (tamperingHook P classify s x).2.packetsFalsePos =
        if attribution P classify s x = .falsePos then s.packetsFalsePos + 1
        else s.packetsFalsePos :=
  counters_count _ _

/-- A packet that counts at all counts once. -/
theorem counted_tamperingHook (h : attribution P classify s x ≠ .uncounted) :
    (tamperingHook P classify s x).2.packetsDetected +
        (tamperingHook P classify s x).2.packetsFalsePos =
      s.packetsDetected + s.packetsFalsePos + 1 := by
  obtain ⟨-, -, hdetected, hfalsePos⟩ :=
    counters_tamperingHook (P := P) (s := s) (x := x)
  rw [hdetected, hfalsePos]
  cases hattr : attribution P classify s x with
  | detected =>
      show s.packetsDetected + 1 + s.packetsFalsePos = _
      rw [UInt64.add_assoc, UInt64.add_comm 1, ← UInt64.add_assoc]
  | falsePos =>
      show s.packetsDetected + (s.packetsFalsePos + 1) = _
      rw [← UInt64.add_assoc]
  | uncounted => exact absurd hattr h

/-- S5 counts every packet. -/
theorem byzantineAttribution_ne (decision : PipelineDecision) (p : RouterPipeline Name)
    (hop : UInt32) : byzantineAttribution decision p hop ≠ .uncounted := by
  unfold byzantineAttribution
  split_ifs <;> decide

/-- The packet is authentic as it arrives, and what the hook makes of it has
another tag. -/
def Stale (P : Primitives Name) (key : List UInt8) (x : TamperedCall ι Name) : Prop :=
  let tag := fun hdr : CaccHeader =>
    SecurityEngine.computeHmac P ⟨key⟩ x.arrival.contentName hdr.ph hdr.rhc hdr.seqn
  Authentic P key x.arrival.contentName x.arrival.hdr ∧ tag x.tampered ≠ tag x.arrival.hdr

variable {key : List UInt8}

/-- The hook leaves the old tag in place, so the packet is dropped. -/
theorem dropped_of_stale (hkey : (s.fleet.pipelines x.pipeline).security = ⟨key⟩)
    (hkept : x.tampered.hmac = x.arrival.hdr.hmac) (hstale : Stale P key x) :
    (s.fleet.process P x.pipeline x.outgoing).1.Dropped := by
  obtain ⟨hauth, htag⟩ := hstale
  have hforged : ¬ Authentic P key x.arrival.contentName x.tampered := by
    intro h
    rw [Authentic, hkept, hauth] at h
    exact htag h.symm
  have hmac : (s.fleet.pipelines x.pipeline).verifyHmac P x.arrival.contentName x.tampered =
      false := by
    rw [← Bool.not_eq_true, RouterPipeline.verifyHmac_iff_authentic hkey]
    exact hforged
  left
  rw [Fleet.process, RouterPipeline.decision_process]
  exact if_pos hmac

/-! ## Tags that do not fit -/

/-- Every one of the calls `xs` counts as a detected attack, and from `s` to `s'`
the pipelines lose trust in the hops and change no more than their counters. -/
structure AllDetected (s : TamperingScript ι Name) (xs : List (TamperedCall ι Name))
    (s' : TamperingScript ι Name) : Prop where
  total : s'.packetsTotal = s.packetsTotal + .ofNat xs.length
  tampered : s'.packetsTampered = s.packetsTampered + .ofNat xs.length
  detected : s'.packetsDetected = s.packetsDetected + .ofNat xs.length
  falsePos : s'.packetsFalsePos = s.packetsFalsePos
  rng : s'.fleet.rng = s.fleet.rng
  untouched : ∀ i, (s'.fleet.pipelines i).security = (s.fleet.pipelines i).security ∧
    (s'.fleet.pipelines i).seqCache = (s.fleet.pipelines i).seqCache ∧
    (s'.fleet.pipelines i).rateLimiter = (s.fleet.pipelines i).rateLimiter ∧
    (s'.fleet.pipelines i).caccCore = (s.fleet.pipelines i).caccCore
  reputation : ∀ i, (s'.fleet.pipelines i).reputation =
    ((xs.filter (·.pipeline = i)).map (·.arrival.prevHopId)).foldl
      (fun t hop => t.update hop false) (s.fleet.pipelines i).reputation

/-- The script counts every dropped packet as detected. -/
def CountsDrops (classify : Classifier Name) : Prop :=
  ∀ decision p hop, decision = .dropTampering ∨ decision = .dropReplay →
    classify decision p hop = .detected

theorem AllDetected.refl (s : TamperingScript ι Name) : AllDetected s [] s where
  total := (UInt64.add_zero _).symm
  tampered := (UInt64.add_zero _).symm
  detected := (UInt64.add_zero _).symm
  falsePos := rfl
  rng := rfl
  untouched _ := ⟨rfl, rfl, rfl, rfl⟩
  reputation _ := rfl

theorem AllDetected.trans {s' s'' : TamperingScript ι Name} {xs ys : List (TamperedCall ι Name)}
    (h : AllDetected s xs s') (h' : AllDetected s' ys s'') : AllDetected s (xs ++ ys) s'' where
  total := by rw [h'.total, h.total, List.length_append, UInt64.ofNat_add, UInt64.add_assoc]
  tampered := by
    rw [h'.tampered, h.tampered, List.length_append, UInt64.ofNat_add, UInt64.add_assoc]
  detected := by
    rw [h'.detected, h.detected, List.length_append, UInt64.ofNat_add, UInt64.add_assoc]
  falsePos := h'.falsePos.trans h.falsePos
  rng := h'.rng.trans h.rng
  untouched i := by
    obtain ⟨hsec, hseq, hrate, hcore⟩ := h.untouched i
    rw [← hsec, ← hseq, ← hrate, ← hcore]
    exact h'.untouched i
  reputation i := by
    rw [h'.reputation, h.reputation, List.filter_append, List.map_append, List.foldl_append]

theorem AllDetected.step (hcounts : CountsDrops classify)
    (hkey : (s.fleet.pipelines x.pipeline).security = ⟨key⟩)
    (hkept : x.tampered.hmac = x.arrival.hdr.hmac) (hstale : Stale P key x) :
    AllDetected s [x] (tamperingHook P classify s x).2 := by
  have hdropped := dropped_of_stale hkey hkept hstale
  obtain ⟨htotal, htampered, hdetected, hfalsePos⟩ :=
    counters_tamperingHook (P := P) (s := s) (x := x)
  have hattr : attribution P classify s x = .detected := hcounts _ _ _ hdropped
  rw [hattr] at hdetected hfalsePos
  have hfleet : (tamperingHook P classify s x).2.fleet = _ := fleet_tamperingHook
  have hpost := RouterPipeline.process_of_dropped hdropped
  refine ⟨htotal, htampered, hdetected, hfalsePos, ?_, fun i => ?_, fun i => ?_⟩
  · rw [hfleet, Fleet.process, hpost]
  · rw [hfleet, Fleet.process, hpost]
    by_cases hi : i = x.pipeline
    · subst hi
      simp
    · simp [Function.update_of_ne hi]
  · rw [hfleet, Fleet.process, hpost]
    by_cases hi : i = x.pipeline
    · subst hi
      simp [TamperedCall.outgoing]
    · simp [Function.update_of_ne hi, Ne.symm hi]

/-- **Run.** Every packet of a run is detected if its tag is stale. -/
theorem AllDetected.run (hcounts : CountsDrops classify) {xs : List (TamperedCall ι Name)}
    (hkey : ∀ i, (s.fleet.pipelines i).security = ⟨key⟩)
    (hkept : ∀ x ∈ xs, x.tampered.hmac = x.arrival.hdr.hmac)
    (hstale : ∀ x ∈ xs, Stale P key x) :
    AllDetected s xs (Machine.final (tamperingHook P classify) s xs) := by
  induction xs generalizing s with
  | nil => exact .refl s
  | cons x xs ih =>
      obtain ⟨hx, hxs⟩ := List.forall_mem_cons.mp hstale
      obtain ⟨hkeptx, hkept⟩ := List.forall_mem_cons.mp hkept
      have hstep : AllDetected s [x] (tamperingHook P classify s x).2 :=
        .step hcounts (hkey _) hkeptx hx
      have hkey' := fun i => (hstep.untouched i).1.trans (hkey i)
      exact hstep.trans (ih hkey' hkept hxs)

/-- If all calls count as detected, the script reports 100 percent. -/
theorem AllDetected.rates {fleet : Fleet ι Name} {xs : List (TamperedCall ι Name)}
    (h : AllDetected (start fleet) xs s) (hpos : 0 < xs.length) (hlen : xs.length < 2 ^ 64) :
    s.detectionRate = 100 ∧ s.falsePositiveRate = 0 := by
  have htoNat : (UInt64.ofNat xs.length).toNat = xs.length :=
    UInt64.toNat_ofNat_of_lt' hlen
  have htampered : s.packetsTampered = .ofNat xs.length := by
    simpa [start] using h.tampered
  have hdetected : s.packetsDetected = .ofNat xs.length := by
    simpa [start] using h.detected
  have hfalsePos : s.packetsFalsePos = 0 := h.falsePos
  have hgt : s.packetsTampered > 0 := by
    rw [gt_iff_lt, UInt64.lt_iff_toNat_lt, htampered, htoNat]
    exact hpos
  have hne : (xs.length : ℚ) ≠ 0 := by
    exact_mod_cast hpos.ne'
  constructor
  · rw [detectionRate, if_pos hgt, hdetected, htampered, htoNat]
    exact mul_div_cancel_right₀ 100 hne
  · rw [falsePositiveRate, if_pos hgt, hfalsePos]
    simp

theorem countsDrops_ph : CountsDrops (phTamperingAttribution : Classifier Name) :=
  fun _ _ _ h => if_pos h

theorem countsDrops_rhc : CountsDrops (rhcTamperingAttribution : Classifier Name) :=
  fun _ _ _ h => if_pos h

theorem countsDrops_byzantine : CountsDrops (byzantineAttribution : Classifier Name) :=
  fun _ _ _ h => if_pos h

/-- Some draw of S2 leaves an RHC of 0 as it is exactly when `maxHops` is 128 or
more: `2 * maxHops` then reaches 256, which is 0 in a byte. -/
theorem tamperRhc_eq_self_iff {maxHops : UInt8} (hpos : 1 ≤ maxHops.toNat)
    {hdr : CaccHeader} (hrhc : hdr.rhc = 0) :
    (∃ draw, tamperRhc maxHops draw hdr = hdr) ↔ 128 ≤ maxHops.toNat := by
  have heq : ∀ draw, tamperRhc maxHops draw hdr = hdr ↔
      (1 + draw % (2 * maxHops.toNat)) % 256 = 0 := by
    intro draw
    obtain ⟨ph, rhc, seqn, hmac⟩ := hdr
    subst hrhc
    simp [tamperRhc, ← UInt8.toNat_inj]
  simp only [heq]
  have hmax := maxHops.toNat_lt
  constructor
  · rintro ⟨draw, hdraw⟩
    have hlt := Nat.mod_lt draw (show 0 < 2 * maxHops.toNat by omega)
    omega
  · intro hlarge
    have hdraw : 255 % (2 * maxHops.toNat) = 255 := Nat.mod_eq_of_lt (by omega)
    exact ⟨255, by rw [hdraw]⟩

/-- What holds of a hook that keeps the tag and counts every drop. -/
theorem detected_of_stale {κ : Type} (hcounts : CountsDrops classify)
    {call : κ → TamperedCall ι Name} {fleet : Fleet ι Name}
    (hkept : ∀ x, (call x).tampered.hmac = (call x).arrival.hdr.hmac)
    (hkey : ∀ i, (fleet.pipelines i).security = ⟨key⟩) (xs : List κ)
    (hstale : ∀ x ∈ xs, Stale P key (call x)) :
    let s := Machine.final (fun s x => tamperingHook P classify s (call x)) (start fleet) xs
    AllDetected (start fleet) (xs.map call) s ∧
      (0 < xs.length → xs.length < 2 ^ 64 →
        s.detectionRate = 100 ∧ s.falsePositiveRate = 0) := by
  intro s
  have hall : AllDetected (start fleet) (xs.map call) s := by
    have hfinal : s = Machine.final (tamperingHook P classify) (start fleet) (xs.map call) :=
      Machine.final_map call _ xs
    rw [hfinal]
    refine .run hcounts hkey ?_ ?_
    · exact List.forall_mem_map.mpr fun x _ => hkept x
    · exact List.forall_mem_map.mpr hstale
  refine ⟨hall, fun hpos hlen => hall.rates ?_ ?_⟩
  · rwa [List.length_map]
  · rwa [List.length_map]

/-- **A stale tag is always detected.** On authentic traffic every packet that S1, S2
or S5 tampers with is dropped and counted, whether or not the attacker has the key,
as long as its new fields have another tag: the scripts report 100 percent, and of
the routers nothing but the counters and the trust in the hops changes. For S2 the
fields do change, unless `maxHops` is 128 or more. -/
theorem stale_tags_detected (P : Primitives Name) (key : List UInt8)
    (fleet : Fleet ι Name) (hkey : ∀ i, (fleet.pipelines i).security = ⟨key⟩) :
    (∀ hasKey (xs : List (HookCall ι Name)), (∀ x ∈ xs, Stale P key (phTamperingCall x)) →
      let s := Machine.final (phTamperingHook P hasKey) (start fleet) xs
      AllDetected (start fleet) (xs.map phTamperingCall) s ∧
        (0 < xs.length → xs.length < 2 ^ 64 →
          s.detectionRate = 100 ∧ s.falsePositiveRate = 0)) ∧
    (∀ hasKey maxHops (xs : List (RhcTamperingCall ι Name)),
      (∀ x ∈ xs, Stale P key (rhcTamperingCall maxHops x)) →
      let s := Machine.final (rhcTamperingHook P hasKey maxHops) (start fleet) xs
      AllDetected (start fleet) (xs.map (rhcTamperingCall maxHops)) s ∧
        (0 < xs.length → xs.length < 2 ^ 64 →
          s.detectionRate = 100 ∧ s.falsePositiveRate = 0)) ∧
    (∀ xs : List (HookCall ι Name), (∀ x ∈ xs, Stale P key (byzantineCall x)) →
      let s := Machine.final (byzantineHook P) (start fleet) xs
      AllDetected (start fleet) (xs.map byzantineCall) s ∧
        (0 < xs.length → xs.length < 2 ^ 64 →
          s.detectionRate = 100 ∧ s.falsePositiveRate = 0)) ∧
    ∀ (maxHops : UInt8) (hdr : CaccHeader), 1 ≤ maxHops.toNat → hdr.rhc = 0 →
      ((∃ draw, tamperRhc maxHops draw hdr = hdr) ↔ 128 ≤ maxHops.toNat) := by
  refine ⟨fun hasKey xs => ?_, fun hasKey maxHops xs => ?_, fun xs => ?_, ?_⟩
  · exact detected_of_stale countsDrops_ph (fun _ => rfl) hkey xs
  · exact detected_of_stale countsDrops_rhc (fun _ => rfl) hkey xs
  · exact detected_of_stale countsDrops_byzantine (fun _ => rfl) hkey xs
  · exact fun maxHops hdr hpos hrhc => tamperRhc_eq_self_iff hpos hrhc

/-- The first two packets of a name, from two hops. -/
def sampleCalls : List (HookCall Unit (List UInt8)) :=
  [⟨(), sampleArrival (sampleHeader 0 0 1)⟩,
    ⟨(), { sampleArrival (sampleHeader 0 0 2) with prevHopId := 9 }⟩]

/-- S1 with an attacker that has the key, S2 with two draws, and S5. -/
theorem stale_tags_detected_sample :
    let draws : List (RhcTamperingCall Unit (List UInt8)) :=
      [⟨⟨(), sampleArrival (sampleHeader 0 0 1)⟩, 3⟩,
        ⟨⟨(), sampleArrival (sampleHeader 0 0 2)⟩, 27⟩]
    (Machine.final (phTamperingHook samplePrimitives true) (start sampleFleet)
        sampleCalls).detectionRate = 100 ∧
      (Machine.final (rhcTamperingHook samplePrimitives false 10) (start sampleFleet)
        draws).detectionRate = 100 ∧
      (Machine.final (byzantineHook samplePrimitives) (start sampleFleet)
        sampleCalls).falsePositiveRate = 0 ∧
      ∃ draw, tamperRhc 128 draw (sampleHeader 0 0 1) = sampleHeader 0 0 1 := by
  intro draws
  obtain ⟨hph, hrhc, hbyzantine, hsame⟩ :=
    stale_tags_detected samplePrimitives sampleKey sampleFleet fun _ => rfl
  refine ⟨((hph true sampleCalls ?_).2 (by decide) (by decide)).1,
    ((hrhc false 10 draws ?_).2 (by decide) (by decide)).1,
    ((hbyzantine sampleCalls ?_).2 (by decide) (by decide)).2,
    (hsame 128 _ (by decide) rfl).mpr (by decide)⟩
  · exact List.forall_mem_cons.mpr ⟨⟨rfl, by decide +kernel⟩,
      List.forall_mem_singleton.mpr ⟨rfl, by decide +kernel⟩⟩
  · exact List.forall_mem_cons.mpr ⟨⟨rfl, by decide +kernel⟩,
      List.forall_mem_singleton.mpr ⟨rfl, by decide +kernel⟩⟩
  · exact List.forall_mem_cons.mpr ⟨⟨rfl, by decide +kernel⟩,
      List.forall_mem_singleton.mpr ⟨rfl, by decide +kernel⟩⟩

end TamperingScript
end CaccSecure
