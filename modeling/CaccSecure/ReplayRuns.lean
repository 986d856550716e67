import CaccSecure.AttackSafety

/-!
# What scenario S3 reports

The replay hook stands behind a producer whose headers it is called with, in the
order in which they are created. The pairs that it keeps are numbered by the headers
they come from, and so is what a pipeline has accepted last: a packet is dropped
exactly if its number is no greater. Legitimate packets are therefore never dropped,
and what the script reports as detections and as false positives are replayed
packets alike.
-/

namespace CaccSecure

namespace ReplayScript

variable {ι Name : Type} [DecidableEq Name]

/-! ## The figures of `main` -/

/-- `detectionRate`, in percent. -/
def detectionRate (s : ReplayScript ι Name) : ℚ :=
  if s.packetsReplayed > 0 then
    100 * s.packetsDetected.toNat / s.packetsReplayed.toNat
  else 0

/-- `falsePositiveRate`; the difference is unsigned. -/
def falsePositiveRate (s : ReplayScript ι Name) : ℚ :=
  if s.packetsTotal - s.packetsReplayed > 0 then
    100 * s.packetsFalsePos.toNat / (s.packetsTotal - s.packetsReplayed).toNat
  else 0

def precision (s : ReplayScript ι Name) : ℚ :=
  if s.packetsDetected + s.packetsFalsePos > 0 then
    100 * s.packetsDetected.toNat / (s.packetsDetected + s.packetsFalsePos).toNat
  else 0

def packetLoss (s : ReplayScript ι Name) : ℚ :=
  if s.packetsTotal > 0 then
    100 * s.packetsDropped.toNat / s.packetsTotal.toNat
  else 0

theorem totals_replayHook [DecidableEq ι] (P : Primitives Name) (s : ReplayScript ι Name)
    (x : ReplayCall ι Name) :
    (replayHook P s x).2.packetsTotal = s.packetsTotal + 1 ∧
      (replayHook P s x).2.packetsDropped =
        if (replayHook P s x).1.1.Dropped then s.packetsDropped + 1 else s.packetsDropped := by
  have htotal : (s.replayOrRecord x).2.packetsTotal = s.packetsTotal + 1 ∧
      (s.replayOrRecord x).2.packetsDropped = s.packetsDropped := by
    simp only [replayOrRecord]
    split_ifs <;> exact ⟨rfl, rfl⟩
  have hdropped : ∀ o : Outcome, o.decision = .dropReplay ∨ o.decision = .dropTampering ↔
      o.Dropped := fun o => or_comm
  have hfleet := (replayOrRecord_spec s x).1
  simp only [outcome_replayHook]
  simp only [replayHook, outgoing, hfleet, hdropped]
  by_cases hd : (s.fleet.process P x.pipeline
      { x.arrival with hdr := (s.replayOrRecord x).1 }).1.Dropped <;>
    by_cases hx : x.attributionDraw < 3 / 10 <;>
      simp [hd, hx, htotal]

end ReplayScript

namespace ReplayTraffic

variable {ι Name : Type} [DecidableEq ι] [DecidableEq Name]

/-- The parties, how many headers have been created for each name, the numbers of the
pairs that the script keeps, of the header that each pipeline has accepted last (0 if
none); and how many packets have been handed on, how many of them with an old pair,
and how many of these have been dropped with a second draw below 0.3. -/
structure State (ι Name : Type) [DecidableEq Name] where
  producer : Producer Name
  script : ReplayScript ι Name
  created : Name → ℕ
  numbers : Name → List ℕ
  mark : ι → Name → ℕ
  calls : ℕ
  replayed : ℕ
  below : ℕ

def init (key : List UInt8) (params : ι → Network.Parameters) (rng : Rng) : State ι Name where
  producer := .new key
  script := .start ⟨fun i => (params i).router key, rng⟩
  created _ := 0
  numbers _ := []
  mark _ _ := 0
  calls := 0
  replayed := 0
  below := 0

/-- A deque of at most 256 entries, after one more. -/
def recorded {α : Type} (l : List α) (a : α) : List α :=
  let l := l ++ [a]
  if l.length > 256 then l.tail else l

/-- The call, with the header that the producer creates for its name. -/
def given (P : Primitives Name) (s : State ι Name) (x : ReplayCall ι Name) :
    ReplayCall ι Name :=
  let hdr := (s.producer.createHeader P x.arrival.contentName).1
  { x with arrival := { x.arrival with hdr := hdr } }

/-- The number of the header whose SEQN and tag are handed on. -/
def number (s : State ι Name) (x : ReplayCall ι Name) : ℕ :=
  let numbers := s.numbers x.arrival.contentName
  if s.script.Replaces x then numbers.getD (x.index % numbers.length) 0
  else s.created x.arrival.contentName + 1

/-- A header is created, and goes through the hook. -/
def step (P : Primitives Name) (s : State ι Name) (x : ReplayCall ι Name) :
    Outcome × State ι Name :=
  let n := x.arrival.contentName
  let r := s.script.replayHook P (given P s x)
  let mark := Function.update (s.mark x.pipeline) n (number s x)
  (r.1.1, {
    producer := (s.producer.createHeader P n).2
    script := r.2
    created := Function.update s.created n (s.created n + 1)
    numbers :=
      if s.script.Replaces x then s.numbers
      else Function.update s.numbers n (recorded (s.numbers n) (s.created n + 1))
    mark := if r.1.1.forwards then Function.update s.mark x.pipeline mark else s.mark
    calls := s.calls + 1
    replayed := if s.script.Replaces x then s.replayed + 1 else s.replayed
    below :=
      if r.1.1.Dropped ∧ x.attributionDraw < 3 / 10 then s.below + 1 else s.below })

/-- What is handed on is at most half the SEQN space ahead of what the pipeline has
accepted last for the name, and less than half behind. -/
def Near (s : State ι Name) (x : ReplayCall ι Name) : Prop :=
  x.arrival.contentName ∈ (s.script.fleet.pipelines x.pipeline).seqCache.names →
    number s x ≤ s.mark x.pipeline x.arrival.contentName + 128 ∧
      s.mark x.pipeline x.arrival.contentName < number s x + 128

instance (s : State ι Name) (x : ReplayCall ι Name) : Decidable (Near s x) :=
  inferInstanceAs (Decidable (_ → _))

structure Inv (key : List UInt8) (P : Primitives Name) (s : State ι Name) : Prop where
  producer_key : s.producer.security = ⟨key⟩
  router_key : ∀ i, (s.script.fleet.pipelines i).security = ⟨key⟩
  counter : ∀ n, s.producer.currentSeqn n = UInt8.ofNat (s.created n)
  pairs : ∀ n, s.script.pairs n = (s.numbers n).map fun k =>
    ((issuedHeader P key n (.ofNat k)).seqn, (issuedHeader P key n (.ofNat k)).hmac)
  numbers_le : ∀ n, ∀ k ∈ s.numbers n, k ≤ s.created n
  mark_le : ∀ i n, s.mark i n ≤ s.created n
  tracked : ∀ i n last, (s.script.fleet.pipelines i).seqCache.lastSeqn n = some last →
    last = UInt8.ofNat (s.mark i n)

variable {P : Primitives Name} {key : List UInt8} {params : ι → Network.Parameters}
  {s : State ι Name} {x : ReplayCall ι Name} {n : Name} {i : ι}

/-- Of two numbers that are near, the greater is fresh. -/
theorem fresh_iff_lt {m k : ℕ} (hahead : k ≤ m + 128) (hbehind : m < k + 128) :
    SeqCache.Fresh (UInt8.ofNat m) (UInt8.ofNat k) ↔ m < k := by
  rw [SeqCache.Fresh, UInt8.toNat_ofNat', UInt8.toNat_ofNat', Circular.Newer, Circular.fwd]
  omega

omit [DecidableEq ι] in
theorem replaces_given : s.script.Replaces (given P s x) ↔ s.script.Replaces x := Iff.rfl

omit [DecidableEq ι] in
theorem Inv.hdr_given (h : Inv key P s) : (given P s x).arrival.hdr =
    issuedHeader P key x.arrival.contentName
      (.ofNat (s.created x.arrival.contentName + 1)) := by
  show (s.producer.createHeader P x.arrival.contentName).1 = _
  rw [Producer.createHeader_fst h.producer_key, h.counter, succ8_ofNat]

omit [DecidableEq ι] in
/-- A replaced pair has one of the numbers that are kept. -/
theorem Inv.number_mem (h : Inv key P s) (hx : s.script.Replaces x) :
    number s x ∈ s.numbers x.arrival.contentName ∧
      x.index % (s.numbers x.arrival.contentName).length <
        (s.numbers x.arrival.contentName).length := by
  have hpairs := hx.2
  rw [h.pairs, ne_eq, List.map_eq_nil_iff] at hpairs
  have hlt := Nat.mod_lt x.index (List.length_pos_iff.mpr hpairs)
  refine ⟨?_, hlt⟩
  simp only [number, if_pos hx]
  rw [List.getD_eq_getElem _ _ hlt]
  exact List.getElem_mem hlt

omit [DecidableEq ι] in
/-- **What is handed on.** It is the header with the number of the call. -/
theorem Inv.hdr_outgoing (h : Inv key P s) : (s.script.outgoing (given P s x)).hdr =
    issuedHeader P key x.arrival.contentName (.ofNat (number s x)) := by
  have hgiven := h.hdr_given (x := x)
  by_cases hx : s.script.Replaces x
  · have hlt := (h.number_mem hx).2
    have hlength : (s.script.pairs x.arrival.contentName).length =
        (s.numbers x.arrival.contentName).length := by
      rw [h.pairs, List.length_map]
    have hold : (s.script.pairs x.arrival.contentName).getD
        (x.index % (s.script.pairs x.arrival.contentName).length) (0, 0) =
          (.ofNat (number s x),
            (issuedHeader P key x.arrival.contentName (.ofNat (number s x))).hmac) := by
      rw [hlength]
      simp only [h.pairs, number, if_pos hx]
      rw [List.getD_eq_getElem _ _ (by rwa [List.length_map]), List.getElem_map,
        List.getD_eq_getElem _ _ hlt]
      rfl
    simp only [ReplayScript.outgoing, ReplayScript.replayOrRecord,
      if_pos (replaces_given.mpr hx)]
    rw [hgiven]
    show ({ issuedHeader P key x.arrival.contentName _ with
      seqn := ((s.script.pairs x.arrival.contentName).getD
        (x.index % (s.script.pairs x.arrival.contentName).length) (0, 0)).1
      hmac := ((s.script.pairs x.arrival.contentName).getD
        (x.index % (s.script.pairs x.arrival.contentName).length) (0, 0)).2 } :
        CaccHeader) = _
    rw [hold]
    rfl
  · have hkept := (ReplayScript.outgoing_of_not_replaces (n := x.arrival.contentName)
      (mt replaces_given.mp hx : ¬ s.script.Replaces (given P s x))).1
    rw [hkept, hgiven, number, if_neg hx]

/-- The packet that a step processes. -/
def packet (P : Primitives Name) (s : State ι Name) (x : ReplayCall ι Name) : Arrival Name :=
  s.script.outgoing (given P s x)

theorem outcome_step : (step P s x).1 =
    (s.script.fleet.process P x.pipeline (packet P s x)).1 :=
  ReplayScript.outcome_replayHook

theorem fleet_step : (step P s x).2.script.fleet =
    (s.script.fleet.process P x.pipeline (packet P s x)).2 :=
  ReplayScript.fleet_replayHook

omit [DecidableEq ι] in
theorem Inv.passes_iff (h : Inv key P s) (hx : Near s x) :
    (s.script.fleet.pipelines x.pipeline).passes P (packet P s x) = true ↔
      (x.arrival.contentName ∈ (s.script.fleet.pipelines x.pipeline).seqCache.names →
        s.mark x.pipeline x.arrival.contentName < number s x) := by
  have hhdr : (packet P s x).hdr = _ := h.hdr_outgoing
  have hmac : (s.script.fleet.pipelines x.pipeline).verifyHmac P x.arrival.contentName
      (packet P s x).hdr = true := by
    rw [RouterPipeline.verifyHmac_iff_authentic (h.router_key _), hhdr]
    exact authentic_issuedHeader _
  rw [RouterPipeline.passes_eq_true_iff, SeqCache.validateSequence_fst]
  show _ ∧ (∀ last, (s.script.fleet.pipelines x.pipeline).seqCache.lastSeqn
    x.arrival.contentName = some last → SeqCache.Fresh last (packet P s x).hdr.seqn) ↔ _
  rw [hhdr]
  constructor
  · rintro ⟨-, hfresh⟩ hmem
    obtain ⟨last, hlast⟩ := SeqCache.mem_names_iff.mp hmem
    have hnew := hfresh last hlast
    rw [h.tracked _ _ last hlast] at hnew
    obtain ⟨hahead, hbehind⟩ := hx hmem
    exact (fresh_iff_lt hahead hbehind).mp hnew
  · intro hlt
    refine ⟨hhdr ▸ hmac, fun last hlast => ?_⟩
    have hmem : x.arrival.contentName ∈
        (s.script.fleet.pipelines x.pipeline).seqCache.names :=
      SeqCache.mem_names_iff.mpr ⟨last, hlast⟩
    obtain ⟨hahead, hbehind⟩ := hx hmem
    rw [h.tracked _ _ last hlast]
    exact (fresh_iff_lt hahead hbehind).mpr (hlt hmem)

/-- **Drops.** A packet is dropped exactly if the pipeline tracks its name and has
accepted its number or a greater one last. -/
theorem Inv.dropped_iff (h : Inv key P s) (hx : Near s x) :
    (step P s x).1.Dropped ↔
      x.arrival.contentName ∈ (s.script.fleet.pipelines x.pipeline).seqCache.names ∧
        number s x ≤ s.mark x.pipeline x.arrival.contentName := by
  rw [outcome_step, Fleet.dropped_iff, ← Bool.not_eq_true, h.passes_iff hx]
  push Not
  rfl

/-- **No legitimate packet is dropped.** -/
theorem Inv.replaces_of_dropped (h : Inv key P s) (hx : Near s x)
    (hdropped : (step P s x).1.Dropped) : s.script.Replaces x := by
  by_contra hlegitimate
  have hle := ((h.dropped_iff hx).mp hdropped).2
  have hmark := h.mark_le x.pipeline x.arrival.contentName
  rw [number, if_neg hlegitimate] at hle
  omega

/-! ## Steps -/

omit [DecidableEq ι] in
theorem Inv.init (key : List UInt8) (params : ι → Network.Parameters) (rng : Rng) :
    Inv key P (init key params rng : State ι Name) where
  producer_key := rfl
  router_key _ := rfl
  counter n := Producer.currentSeqn_new n
  pairs n := by
    show ((∅ : Finmap fun _ : Name => List (UInt8 × UInt32)).lookup n).getD [] = _
    rw [Finmap.lookup_empty]
    rfl
  numbers_le n k hk := by cases hk
  mark_le i n := Nat.le_refl 0
  tracked i n last hlast := by
    have hnone : (SeqCache.new (params i).maxTrackedEntries).lastSeqn n = some last := hlast
    rw [SeqCache.lastSeqn_new] at hnone
    cases hnone

theorem created_le_step (m : Name) : s.created m ≤ (step P s x).2.created m := by
  show _ ≤ Function.update s.created x.arrival.contentName _ m
  by_cases hm : m = x.arrival.contentName
  · subst hm
    rw [Function.update_self]
    exact Nat.le_succ _
  · rw [Function.update_of_ne hm]

/-- A pair is replaced by an old one, or it is recorded. -/
theorem pairs_step : (step P s x).2.script.pairs =
    if s.script.Replaces x then s.script.pairs
    else Function.update s.script.pairs x.arrival.contentName
      (recorded (s.script.pairs x.arrival.contentName)
        ((given P s x).arrival.hdr.seqn, (given P s x).arrival.hdr.hmac)) := by
  ext1 n
  show (ReplayScript.replayHook P s.script (given P s x)).2.pairs n = _
  rw [ReplayScript.pairs_replayHook]
  by_cases hx : s.script.Replaces x
  · rw [(ReplayScript.outgoing_of_replaces (replaces_given.mpr hx)).2, if_pos hx]
  · rw [if_neg hx, ReplayScript.replayOrRecord, if_neg (mt replaces_given.mp hx)]
    show ((s.script.history.insert x.arrival.contentName _).lookup n).getD [] = _
    by_cases hn : n = x.arrival.contentName
    · subst hn
      rw [Finmap.lookup_insert, Function.update_self]
      rfl
    · rw [Finmap.lookup_insert_of_ne _ hn, Function.update_of_ne hn]
      rfl

theorem map_recorded {α β : Type} (f : α → β) (l : List α) (a : α) :
    (recorded l a).map f = recorded (l.map f) (f a) := by
  unfold recorded
  simp only [List.length_append, List.length_map, List.length_singleton]
  split_ifs <;> simp [List.map_tail]

theorem mem_of_mem_recorded {α : Type} {l : List α} {a b : α} (h : b ∈ recorded l a) :
    b ∈ l ∨ b = a := by
  simpa using mem_of_mem_capped h

theorem mark_step (j : ι) : (step P s x).2.mark j n =
    if (step P s x).1.forwards ∧ j = x.pipeline ∧ n = x.arrival.contentName then number s x
    else s.mark j n := by
  show (if (step P s x).1.forwards then _ else s.mark) j n = _
  by_cases hforwards : (step P s x).1.forwards = true
  · rw [if_pos hforwards]
    by_cases hj : j = x.pipeline
    · subst hj
      rw [Function.update_self]
      by_cases hn : n = x.arrival.contentName
      · subst hn
        rw [Function.update_self, if_pos ⟨hforwards, rfl, rfl⟩]
      · rw [Function.update_of_ne hn, if_neg (by simp [hn])]
    · rw [Function.update_of_ne hj, if_neg (by simp [hj])]
  · rw [if_neg hforwards, if_neg (by simp [hforwards])]

omit [DecidableEq ι] in
theorem Inv.number_le (h : Inv key P s) :
    number s x ≤ s.created x.arrival.contentName + 1 := by
  by_cases hx : s.script.Replaces x
  · exact (h.numbers_le _ _ (h.number_mem hx).1).trans (Nat.le_succ _)
  · rw [number, if_neg hx]

theorem numbers_step : (step P s x).2.numbers =
    if s.script.Replaces x then s.numbers
    else Function.update s.numbers x.arrival.contentName
      (recorded (s.numbers x.arrival.contentName) (s.created x.arrival.contentName + 1)) := rfl

theorem Inv.pairs_post (h : Inv key P s) (n : Name) : (step P s x).2.script.pairs n =
    ((step P s x).2.numbers n).map fun k =>
      ((issuedHeader P key n (.ofNat k)).seqn, (issuedHeader P key n (.ofNat k)).hmac) := by
  rw [pairs_step, numbers_step]
  split_ifs
  · exact h.pairs n
  · by_cases hn : n = x.arrival.contentName
    · subst hn
      rw [Function.update_self, Function.update_self, map_recorded, h.hdr_given, h.pairs]
    · rw [Function.update_of_ne hn, Function.update_of_ne hn, h.pairs]

theorem Inv.numbers_post (h : Inv key P s) {k : ℕ} (hk : k ∈ (step P s x).2.numbers n) :
    k ≤ (step P s x).2.created n := by
  rw [numbers_step] at hk
  split_ifs at hk
  · exact (h.numbers_le n k hk).trans (created_le_step n)
  · by_cases hn : n = x.arrival.contentName
    · subst hn
      rw [Function.update_self] at hk
      rcases mem_of_mem_recorded hk with hold | rfl
      · exact (h.numbers_le _ k hold).trans (created_le_step _)
      · show _ ≤ Function.update s.created _ _ _
        rw [Function.update_self]
    · rw [Function.update_of_ne hn] at hk
      exact (h.numbers_le n k hk).trans (created_le_step n)

theorem Inv.mark_post (h : Inv key P s) (j : ι) (n : Name) :
    (step P s x).2.mark j n ≤ (step P s x).2.created n := by
  rw [mark_step]
  split_ifs with hself
  · obtain ⟨-, -, rfl⟩ := hself
    show _ ≤ Function.update s.created _ _ _
    rw [Function.update_self]
    exact h.number_le
  · exact (h.mark_le j n).trans (created_le_step n)

/-- What the pipeline of the call stores for its name, if it lets the packet through. -/
theorem Inv.lastSeqn_of_passes (h : Inv key P s)
    (hpass : (s.script.fleet.pipelines x.pipeline).passes P (packet P s x) = true) :
    ((s.script.fleet.process P x.pipeline (packet P s x)).2.pipelines
        x.pipeline).seqCache.lastSeqn x.arrival.contentName =
      some (UInt8.ofNat (number s x)) := by
  have hstored := RouterPipeline.lastSeqn_process_self
    (s := (s.script.fleet.pipelines x.pipeline, s.script.fleet.rng)) hpass
  have hseqn : (packet P s x).hdr.seqn = UInt8.ofNat (number s x) := by
    rw [show (packet P s x).hdr = _ from h.hdr_outgoing]
    rfl
  rw [Fleet.pipelines_process_self, ← hseqn]
  exact hstored

theorem Inv.tracked_post (h : Inv key P s) {j : ι} {last : UInt8}
    (hlast : ((step P s x).2.script.fleet.pipelines j).seqCache.lastSeqn n = some last) :
    last = UInt8.ofNat ((step P s x).2.mark j n) := by
  rw [fleet_step] at hlast
  rw [mark_step, outcome_step, Fleet.forwards_process]
  by_cases hj : j = x.pipeline
  · subst hj
    split_ifs with hself
    · obtain ⟨hpass, -, rfl⟩ := hself
      rw [h.lastSeqn_of_passes hpass] at hlast
      exact (Option.some.inj hlast).symm
    · have hother : (packet P s x).contentName = n →
          (s.script.fleet.pipelines x.pipeline).passes P (packet P s x) = false := by
        intro hn
        rw [← Bool.not_eq_true]
        exact fun hpass => hself ⟨hpass, rfl, hn.symm⟩
      rw [Fleet.pipelines_process_self] at hlast
      rcases RouterPipeline.lastSeqn_process
        (s := (s.script.fleet.pipelines x.pipeline, s.script.fleet.rng)) hother with hsame | hnone
      · exact h.tracked _ n last (hsame.symm.trans hlast)
      · rw [hnone] at hlast
        cases hlast
  · rw [Fleet.pipelines_process_of_ne hj] at hlast
    rw [if_neg (by simp [hj])]
    exact h.tracked j n last hlast

theorem Inv.step (h : Inv key P s) (x : ReplayCall ι Name) : Inv key P (step P s x).2 where
  producer_key := by
    show (s.producer.createHeader P _).2.security = _
    rw [Producer.security_createHeader, h.producer_key]
  router_key i := by
    rw [fleet_step, Fleet.security_process, h.router_key]
  counter := Producer.currentSeqn_createHeader (P := P) h.counter x.arrival.contentName
  pairs := h.pairs_post
  numbers_le _ _ := h.numbers_post
  mark_le := h.mark_post
  tracked _ _ _ := h.tracked_post

/-! ## One pipeline behind the hook -/

/-- All packets go to the pipeline `i`, for names of `S`. -/
def Allowed (i : ι) (S : Finset Name) (s : State ι Name) (x : ReplayCall ι Name) : Prop :=
  x.pipeline = i ∧ x.arrival.contentName ∈ S ∧ Near s x

/-- The pipeline tracks the name of every pair that the script keeps, and has accepted
its number or a greater one last. -/
structure Held (i : ι) (S : Finset Name) (K : ℕ) (s : State ι Name) : Prop where
  capacity : (s.script.fleet.pipelines i).seqCache.maxTrackedEntries = K
  names_mem : ∀ n ∈ (s.script.fleet.pipelines i).seqCache.names, n ∈ S
  held : ∀ n, ∀ k ∈ s.numbers n,
    n ∈ (s.script.fleet.pipelines i).seqCache.names ∧ k ≤ s.mark i n

/-- All counters of the script count packets with an old pair. -/
structure Counted (s : State ι Name) : Prop where
  total : s.script.packetsTotal = .ofNat s.calls
  replayed : s.script.packetsReplayed = .ofNat s.replayed
  dropped : s.script.packetsDropped = .ofNat s.replayed
  detected : s.script.packetsDetected = .ofNat s.below
  falsePos : s.script.packetsFalsePos = .ofNat (s.replayed - s.below)
  below_le : s.below ≤ s.replayed
  replayed_le : s.replayed ≤ s.calls

variable {S : Finset Name} {K : ℕ}

/-- **Every replayed packet is dropped**, and no other. -/
theorem Held.dropped_iff (hheld : Held i S K s) (h : Inv key P s) (hx : Allowed i S s x) :
    (step P s x).1.Dropped ↔ s.script.Replaces x := by
  rcases hx with ⟨rfl, -, hnear⟩
  constructor
  · exact h.replaces_of_dropped hnear
  · intro hreplaces
    exact (h.dropped_iff hnear).mpr (hheld.held _ _ (h.number_mem hreplaces).1)

omit [DecidableEq ι] in
theorem Held.init (i : ι) (S : Finset Name) (key : List UInt8)
    (params : ι → Network.Parameters) (rng : Rng) :
    Held i S (params i).maxTrackedEntries (init key params rng : State ι Name) where
  capacity := rfl
  names_mem n hn := by cases hn
  held n k hk := by cases hk

theorem Held.passes_iff (hheld : Held i S K s) (h : Inv key P s) (hx : Allowed i S s x) :
    (s.script.fleet.pipelines x.pipeline).passes P (packet P s x) = true ↔
      ¬ s.script.Replaces x := by
  rw [← hheld.dropped_iff h hx, outcome_step, Fleet.dropped_iff, Bool.not_eq_false]

theorem pipeline_step : (step P s x).2.script.fleet.pipelines x.pipeline =
    (RouterPipeline.process P (s.script.fleet.pipelines x.pipeline, s.script.fleet.rng)
      (packet P s x)).2.1 := by
  rw [fleet_step, Fleet.pipelines_process_self]

/-- With room for all names, the pipeline of the call goes on tracking the others. -/
theorem Held.lastSeqn_of_ne (hheld : Held i S K s) (hx : Allowed i S s x) (hcard : S.card ≤ K)
    (hpass : (s.script.fleet.pipelines x.pipeline).passes P (packet P s x) = true)
    (hn : n ≠ x.arrival.contentName) :
    ((step P s x).2.script.fleet.pipelines x.pipeline).seqCache.lastSeqn n =
      (s.script.fleet.pipelines x.pipeline).seqCache.lastSeqn n := by
  obtain ⟨rfl, hname, -⟩ := hx
  have hroom := Recency.room_of_subset
    (s.script.fleet.pipelines x.pipeline).seqCache.nodup_names hheld.names_mem hname
    (hcard.trans hheld.capacity.ge)
  rw [pipeline_step, RouterPipeline.seqCache_of_passes
    (s := (s.script.fleet.pipelines x.pipeline, s.script.fleet.rng)) hpass]
  exact SeqCache.lastSeqn_of_ne_of_room hn hroom

/-- The pipeline of the call has every number that the script keeps behind it. -/
theorem Held.held_post (hheld : Held i S K s) (h : Inv key P s) (hx : Allowed i S s x)
    (hcard : S.card ≤ K) {k : ℕ} (hk : k ∈ (step P s x).2.numbers n) :
    n ∈ ((step P s x).2.script.fleet.pipelines x.pipeline).seqCache.names ∧
      k ≤ (step P s x).2.mark x.pipeline n := by
  have hpasses := hheld.passes_iff h hx
  have hold : ∀ m, ∀ k ∈ s.numbers m,
      m ∈ (s.script.fleet.pipelines x.pipeline).seqCache.names ∧ k ≤ s.mark x.pipeline m := by
    rw [hx.1]
    exact hheld.held
  rw [mark_step, outcome_step, Fleet.forwards_process]
  rw [numbers_step] at hk
  by_cases hreplaces : s.script.Replaces x
  · -- the packet is dropped, and the caches stay as they are
    have hdrop : (s.script.fleet.pipelines x.pipeline).passes P (packet P s x) = false := by
      rw [← Bool.not_eq_true, hpasses, not_not]
      exact hreplaces
    rw [if_pos hreplaces] at hk
    rw [pipeline_step, RouterPipeline.seqCache_of_not_passes
      (s := (s.script.fleet.pipelines x.pipeline, s.script.fleet.rng)) hdrop,
      if_neg (by simp [hdrop])]
    exact hold n k hk
  · have hpass := hpasses.mpr hreplaces
    rw [if_neg hreplaces] at hk
    by_cases hn : n = x.arrival.contentName
    · subst hn
      rw [Function.update_self] at hk
      rw [if_pos ⟨hpass, rfl, rfl⟩, SeqCache.mem_names_iff, fleet_step,
        h.lastSeqn_of_passes hpass, number, if_neg hreplaces]
      refine ⟨⟨_, rfl⟩, ?_⟩
      rcases mem_of_mem_recorded hk with hkept | rfl
      · exact (h.numbers_le _ k hkept).trans (Nat.le_succ _)
      · exact Nat.le_refl _
    · rw [Function.update_of_ne hn] at hk
      rw [if_neg (by simp [hn]), SeqCache.mem_names_iff,
        hheld.lastSeqn_of_ne hx hcard hpass hn, ← SeqCache.mem_names_iff]
      exact hold n k hk

theorem Held.step (hheld : Held i S K s) (h : Inv key P s) (hx : Allowed i S s x)
    (hcard : S.card ≤ K) : Held i S K (step P s x).2 where
  capacity := by
    rw [← hx.1, pipeline_step, RouterPipeline.maxTrackedEntries_process, hx.1, hheld.capacity]
  names_mem n hn := by
    rw [← hx.1, pipeline_step] at hn
    rcases RouterPipeline.mem_names_process hn with hold | ⟨rfl, -⟩
    · rw [hx.1] at hold
      exact hheld.names_mem n hold
    · exact hx.2.1
  held n k hk := by
    have hpost := hheld.held_post h hx hcard hk
    rwa [hx.1] at hpost

omit [DecidableEq ι] in
theorem Counted.init (key : List UInt8) (params : ι → Network.Parameters) (rng : Rng) :
    Counted (init key params rng : State ι Name) where
  total := rfl
  replayed := rfl
  dropped := rfl
  detected := rfl
  falsePos := rfl
  below_le := Nat.le_refl 0
  replayed_le := Nat.le_refl 0

theorem ofNat_ite {q : Prop} [Decidable q] (a : ℕ) : UInt64.ofNat (if q then a + 1 else a) =
    if q then UInt64.ofNat a + 1 else UInt64.ofNat a := by
  split_ifs
  · exact UInt64.ofNat_add a 1
  · rfl

/-- If a call drops exactly the replayed packets, the counters go on counting them. -/
theorem Counted.step (hcounted : Counted s)
    (hiff : (step P s x).1.Dropped ↔ s.script.Replaces x) : Counted (step P s x).2 := by
  have hcounters := ReplayScript.counters_replayHook P s.script (given P s x)
  have htotals := ReplayScript.totals_replayHook P s.script (given P s x)
  have hbelow : (ReplayTraffic.step P s x).2.below =
      if s.script.Replaces x ∧ x.attributionDraw < 3 / 10 then s.below + 1 else s.below :=
    if_congr (and_congr_left' hiff) rfl rfl
  have hreplayed : (ReplayTraffic.step P s x).2.replayed =
      if s.script.Replaces x then s.replayed + 1 else s.replayed := rfl
  change (ReplayScript.replayHook P s.script (given P s x)).1.1.Dropped ↔ _ at hiff
  have hdraw : (given P s x).attributionDraw = x.attributionDraw := rfl
  simp only [hiff, hdraw, replaces_given, hcounted.replayed, hcounted.detected,
    hcounted.falsePos, hcounted.total, hcounted.dropped] at hcounters htotals
  have hbound := hcounted.below_le
  have hle := hcounted.replayed_le
  refine ⟨?_, ?_, ?_, ?_, ?_, ?_, ?_⟩
  · refine htotals.1.trans ?_
    exact (UInt64.ofNat_add s.calls 1).symm
  · rw [hreplayed, ofNat_ite]
    exact hcounters.1
  · rw [hreplayed, ofNat_ite]
    exact htotals.2
  · rw [hbelow, ofNat_ite]
    exact hcounters.2.1
  -- one more replayed packet is one more on one of the two sides
  · have hdifference : (ReplayTraffic.step P s x).2.replayed -
        (ReplayTraffic.step P s x).2.below =
          if s.script.Replaces x ∧ ¬ x.attributionDraw < 3 / 10 then s.replayed - s.below + 1
          else s.replayed - s.below := by
      rw [hreplayed, hbelow]
      by_cases hx : s.script.Replaces x <;> by_cases hlow : x.attributionDraw < 3 / 10 <;>
        simp only [hx, hlow, and_self, not_true, not_false_eq_true, and_true, and_false,
          if_true, if_false] <;> omega
    rw [hdifference, ofNat_ite]
    exact hcounters.2.2
  · rw [hreplayed, hbelow]
    split_ifs with hlow hx hx
    · omega
    · exact absurd hlow.1 hx
    · omega
    · exact hbound
  · rw [hreplayed]
    show _ ≤ s.calls + 1
    split_ifs <;> omega

theorem percent (a b : UInt64) :
    (if b > 0 then 100 * (a.toNat : ℚ) / b.toNat else 0) = 100 * a.toNat / b.toNat := by
  split_ifs with hb
  · rfl
  · have hzero : b = 0 := by
      rw [gt_iff_lt, UInt64.lt_iff_toNat_lt] at hb
      exact UInt64.toNat_inj.mp (Nat.le_zero.mp (not_lt.mp hb))
    rw [hzero]
    simp

omit [DecidableEq ι] in
/-- The figures, in terms of the packets. -/
theorem Counted.figures (hcounted : Counted s) (hcalls : s.calls < 2 ^ 64) :
    s.script.detectionRate = 100 * s.below / s.replayed ∧
      s.script.precision = 100 * s.below / s.replayed ∧
      s.script.falsePositiveRate =
        100 * (s.replayed - s.below : ℕ) / (s.calls - s.replayed : ℕ) ∧
      s.script.packetLoss = 100 * s.replayed / s.calls := by
  have hbelow := hcounted.below_le
  have hle := hcounted.replayed_le
  have htoNat : ∀ k ≤ s.calls, (UInt64.ofNat k).toNat = k := fun k hk =>
    UInt64.toNat_ofNat_of_lt' (hk.trans_lt hcalls)
  have hsum : UInt64.ofNat s.below + .ofNat (s.replayed - s.below) = .ofNat s.replayed := by
    rw [← UInt64.ofNat_add, Nat.add_sub_cancel' hbelow]
  have hdifference : UInt64.ofNat s.calls - .ofNat s.replayed =
      .ofNat (s.calls - s.replayed) := (UInt64.ofNat_sub hle).symm
  unfold ReplayScript.detectionRate ReplayScript.precision ReplayScript.falsePositiveRate
    ReplayScript.packetLoss
  simp only [percent, hcounted.total, hcounted.replayed, hcounted.dropped, hcounted.detected,
    hcounted.falsePos, hsum, hdifference]
  rw [htoNat _ (hbelow.trans hle), htoNat _ hle, htoNat s.calls (Nat.le_refl _),
    htoNat (s.calls - s.replayed) (Nat.sub_le _ _),
    htoNat (s.replayed - s.below) ((Nat.sub_le _ _).trans hle)]
  exact ⟨rfl, rfl, rfl, rfl⟩

/-- **What S3 reports.** A packet is dropped exactly if its pipeline tracks the name and
has accepted the number of the packet or a greater one last, so a legitimate packet
never is, in any run with any pipelines in which what is handed on stays within half the
SEQN space of what the pipeline has accepted. With one pipeline behind the hook, and no
more names than it can track, the packets with an old pair are the dropped ones, and
`main` reports the same share of them as its detection rate and as its precision: that
of the second draws below 0.3. It reports the others as false positives. -/
theorem replay_figures (P : Primitives Name) (key : List UInt8)
    (params : ι → Network.Parameters) (rng : Rng) :
    (∀ s, Machine.Reach (step P) Near (init key params rng) s → ∀ x, Near s x →
      ((step P s x).1.Dropped ↔
        x.arrival.contentName ∈ (s.script.fleet.pipelines x.pipeline).seqCache.names ∧
          number s x ≤ s.mark x.pipeline x.arrival.contentName) ∧
      ((step P s x).1.Dropped → s.script.Replaces x)) ∧
    ∀ i (S : Finset Name), S.card ≤ (params i).maxTrackedEntries →
      ∀ s, Machine.Reach (step P) (Allowed i S) (init key params rng) s →
        (∀ x, Allowed i S s x → ((step P s x).1.Dropped ↔ s.script.Replaces x)) ∧
        (s.calls < 2 ^ 64 →
          s.script.detectionRate = 100 * s.below / s.replayed ∧
          s.script.precision = 100 * s.below / s.replayed ∧
          s.script.falsePositiveRate =
            100 * (s.replayed - s.below : ℕ) / (s.calls - s.replayed : ℕ) ∧
          s.script.packetLoss = 100 * s.replayed / s.calls) := by
  constructor
  · intro s hreach x hx
    have h : Inv key P s := hreach.invariant (I := Inv key P) (.init key params rng)
      fun _ x h _ => h.step x
    exact ⟨h.dropped_iff hx, h.replaces_of_dropped hx⟩
  · intro i S hcard s hreach
    have h : Inv key P s ∧ Held i S (params i).maxTrackedEntries s ∧ Counted s :=
      hreach.invariant (I := fun s => Inv key P s ∧ Held i S (params i).maxTrackedEntries s ∧
          Counted s)
        ⟨.init key params rng, .init i S key params rng, .init key params rng⟩
        fun s x hs hx => by
          obtain ⟨h, hheld, hcounted⟩ := hs
          exact ⟨h.step x, hheld.step h hx hcard, hcounted.step (hheld.dropped_iff h hx)⟩
    obtain ⟨h, hheld, hcounted⟩ := h
    exact ⟨fun x hx => hheld.dropped_iff h hx, hcounted.figures⟩

/-- One pipeline, with the parameters of the sample router. -/
def sampleStart : State Unit (List UInt8) :=
  init sampleKey (fun _ => ⟨1, 10000, 100, 1 / 2, 10⟩) (Stream'.const 0)

/-- The first header is recorded, and the second is given its pair. -/
def sampleReplayed : State Unit (List UInt8) :=
  (step samplePrimitives
    (step samplePrimitives sampleStart
      (ReplayScript.sampleReplayCall (sampleHeader 0 0 0) (1 / 2) (1 / 2))).2
    (ReplayScript.sampleReplayCall (sampleHeader 0 0 0) (1 / 10) (1 / 2))).2

theorem reach_sampleReplayed :
    Machine.Reach (step samplePrimitives) (Allowed () {sampleName}) sampleStart
      sampleReplayed := by
  have hfirst : Machine.Reach (step samplePrimitives) (Allowed () {sampleName}) sampleStart
      (step samplePrimitives sampleStart
        (ReplayScript.sampleReplayCall (sampleHeader 0 0 0) (1 / 2) (1 / 2))).2 :=
    .step .init ⟨rfl, Finset.mem_singleton_self _, by decide +kernel⟩
  exact .step hfirst ⟨rfl, Finset.mem_singleton_self _, by decide +kernel⟩

/-- The one replayed packet is dropped: no detection, and all false positives. -/
theorem replay_figures_sample :
    sampleReplayed.script.detectionRate = 0 ∧
      sampleReplayed.script.falsePositiveRate = 100 ∧
      sampleReplayed.script.packetLoss = 50 := by
  obtain ⟨hdetection, -, hfalsePos, hloss⟩ :=
    ((replay_figures samplePrimitives sampleKey (fun _ => ⟨1, 10000, 100, 1 / 2, 10⟩)
      (Stream'.const 0)).2 () {sampleName} (by decide) sampleReplayed
        reach_sampleReplayed).2 (by decide +kernel)
  have hcalls : sampleReplayed.calls = 2 := by decide +kernel
  have hreplayed : sampleReplayed.replayed = 1 := by decide +kernel
  have hbelow : sampleReplayed.below = 0 := by decide +kernel
  rw [hdetection, hfalsePos, hloss, hcalls, hreplayed, hbelow]
  norm_num

end ReplayTraffic
end CaccSecure
