import CaccSecure.TamperingHooks
import CaccSecure.TrustOrder

/-!
# Scenario S5: what the trust makes of a colluding router

`attack-s5-byzantine` counts a packet that passes as detected if the trust in its
hop is below 0.3 afterwards. Trust starts from 0 and every packet that passes
raises it, so a hop falls under the threshold with its first packets, whatever
they contain, and is above it as soon as four packets in a row have passed.
-/

namespace CaccSecure
namespace TamperingScript

variable {ι Name : Type} [DecidableEq ι] [DecidableEq Name]

/-- The processed packets in order, with the pipeline and the hop of each, and
whether it passed. -/
abbrev Conduct (ι : Type) := List ((ι × UInt32) × Bool)

/-- What the packets of one hop did at one pipeline. -/
def Conduct.at (log : Conduct ι) (i : ι) (hop : UInt32) : List Bool :=
  (log.filter (·.1 = (i, hop))).map Prod.snd

/-- The updates of the reputation table of one pipeline. -/
def Conduct.updates (log : Conduct ι) (i : ι) : List (UInt32 × Bool) :=
  (log.filter (·.1.1 = i)).map fun y => (y.1.2, y.2)

/-- The reputation tables are those of the log. -/
def Follows (fleet : Fleet ι Name) (log : Conduct ι) : Prop :=
  ∀ i, (fleet.pipelines i).reputation =
    Machine.final ReputationTable.record (.new (1 / 2) (9 / 10)) (log.updates i)

variable {P : Primitives Name} {classify : Classifier Name} {fleet : Fleet ι Name}
  {s : TamperingScript ι Name} {x : TamperedCall ι Name} {log : Conduct ι} {i : ι}
  {hop : UInt32}

theorem Conduct.history_updates (log : Conduct ι) (i : ι) (hop : UInt32) :
    ReputationTable.history hop (log.updates i) = log.at i hop := by
  induction log with
  | nil => rfl
  | cons y log ih =>
      obtain ⟨⟨j, h⟩, passed⟩ := y
      simp only [ReputationTable.history, updates, Conduct.at, List.filter_cons] at ih ⊢
      by_cases hj : j = i <;> by_cases hh : h = hop <;> simp [hj, hh, ih]

/-! ## One packet -/

theorem Follows.of_fresh (hf : fleet.Fresh) : Follows fleet ([] : Conduct ι) := by
  intro i
  obtain ⟨_, _, _, _, _, _, heq⟩ := hf i
  rw [heq]
  rfl

omit [DecidableEq Name] in
theorem Conduct.updates_concat (log : Conduct ι) (i j : ι) (hop : UInt32) (passed : Bool) :
    Conduct.updates (log ++ [((j, hop), passed)]) i =
      log.updates i ++ if j = i then [(hop, passed)] else [] := by
  rw [updates, updates, List.filter_append, List.map_append]
  by_cases hj : j = i <;> simp [hj]

theorem Follows.process (h : Follows fleet log) (P : Primitives Name) (i : ι)
    (a : Arrival Name) :
    Follows (fleet.process P i a).2
      (log ++ [((i, a.prevHopId), (fleet.process P i a).1.forwards)]) := by
  intro j
  rw [Conduct.updates_concat]
  by_cases hj : i = j
  · subst hj
    rw [if_pos rfl, Machine.final_concat, ← h i, Fleet.pipelines_process_self,
      RouterPipeline.reputation_process, Fleet.forwards_process]
    rfl
  · rw [if_neg hj, List.append_nil, ← h j]
    simp only [Fleet.process, Function.update_of_ne (Ne.symm hj)]

/-- The trust in the hop of a packet, after the packet. -/
theorem Follows.trust (h : Follows fleet log) (P : Primitives Name) (i : ι)
    (a : Arrival Name) :
    ((fleet.process P i a).2.pipelines i).reputation.getTrustScore a.prevHopId =
      Ewma.ewma (9 / 10) 0
        ((log.at i a.prevHopId ++ [(fleet.process P i a).1.forwards]).map
          ReputationTable.evidence) := by
  have hpost := h.process P i a i
  have hhistory : ReputationTable.history a.prevHopId
      (Conduct.updates (log ++ [((i, a.prevHopId), (fleet.process P i a).1.forwards)]) i) =
        log.at i a.prevHopId ++ [(fleet.process P i a).1.forwards] := by
    rw [Conduct.history_updates, Conduct.at, Conduct.at, List.filter_append, List.map_append]
    simp
  rw [hpost, ReputationTable.getTrustScore_final (by norm_num), hhistory, if_neg (by simp)]

/-! ## Few packets, and packets in a row -/

/-- However many packets of a hop were dropped in between, `k` accepted ones do
not bring its trust above `1 - d ^ k`. -/
theorem ewma_evidence_le {d y : ℚ} (hd : 0 ≤ d ∧ d ≤ 1) (hy : 0 ≤ y ∧ y ≤ 1)
    (bs : List Bool) :
    Ewma.ewma d y (bs.map ReputationTable.evidence) ≤ 1 - (1 - y) * d ^ bs.count true := by
  induction bs generalizing y with
  | nil => simp
  | cons b bs ih =>
      have hstep := Ewma.step_mem_Icc hd hy (ReputationTable.evidence_mem b)
      rw [List.map_cons, Ewma.ewma_cons]
      refine (ih hstep).trans ?_
      cases b with
      | true =>
          rw [List.count_cons_self, pow_succ]
          apply le_of_eq
          simp only [ReputationTable.evidence, if_true]
          ring
      | false =>
          rw [List.count_cons_of_ne (by decide)]
          have hpow : 0 ≤ d ^ bs.count true := pow_nonneg hd.1 _
          have hdrop : y * d ≤ y := mul_le_of_le_one_right hy.1 hd.2
          simp only [ReputationTable.evidence, Bool.false_eq_true, if_false]
          nlinarith

/-- After `k` accepted packets in a row the trust is at least `1 - d ^ k`. -/
theorem le_ewma_evidence {d : ℚ} (hd : 0 ≤ d ∧ d ≤ 1) (bs : List Bool) (k : ℕ) :
    1 - d ^ k ≤
      Ewma.ewma d 0 ((bs ++ List.replicate k true).map ReputationTable.evidence) := by
  have hstart := Ewma.ewma_mem_Icc hd (x := 0) (by norm_num)
    (ReputationTable.map_evidence_mem bs)
  have hpos := mul_nonneg hstart.1 (pow_nonneg hd.1 k)
  have hone : ReputationTable.evidence true = 1 := rfl
  rw [List.map_append, Ewma.ewma_append, List.map_replicate, Ewma.ewma_replicate, hone]
  linarith

/-! ## Calls of the hook -/

/-- The packet counts as a detected attack. -/
def Detects (s s' : TamperingScript ι Name) : Prop :=
  s'.packetsDetected = s.packetsDetected + 1 ∧ s'.packetsFalsePos = s.packetsFalsePos

/-- The packet counts as a false positive. -/
def Misses (s s' : TamperingScript ι Name) : Prop :=
  s'.packetsDetected = s.packetsDetected ∧ s'.packetsFalsePos = s.packetsFalsePos + 1

/-- A packet counts as detected if it is dropped, or if its hop has fewer than
30 percent of trust afterwards. -/
theorem detects_or_misses (s : TamperingScript ι Name) (x : TamperedCall ι Name) :
    let o := (s.fleet.process P x.pipeline x.outgoing).1
    let trust := ((s.fleet.process P x.pipeline x.outgoing).2.pipelines
      x.pipeline).reputation.getTrustScore x.arrival.prevHopId
    (o.forwards = false ∨ trust < 3 / 10 →
      Detects s (tamperingHook P byzantineAttribution s x).2) ∧
    (o.forwards = true → 3 / 10 ≤ trust →
      Misses s (tamperingHook P byzantineAttribution s x).2) := by
  intro o trust
  obtain ⟨hdetected, hfalsePos⟩ := (counters_tamperingHook (P := P) (s := s) (x := x)).2.2
  have hdropped : o.forwards = false ↔ o.Dropped := by
    rw [Fleet.dropped_iff, Fleet.forwards_process]
  have hattr : attribution P byzantineAttribution s x =
      if o.Dropped then .detected else if trust < 3 / 10 then .detected else .falsePos := rfl
  constructor
  · intro h
    have hcount : attribution P byzantineAttribution s x = .detected := by
      rw [hattr]
      rcases h with h | h
      · exact if_pos (hdropped.mp h)
      · rw [if_pos h, ite_self]
    rw [hcount] at hdetected hfalsePos
    exact ⟨hdetected, hfalsePos⟩
  · intro hpass htrust
    have hcount : attribution P byzantineAttribution s x = .falsePos := by
      rw [hattr, if_neg (not_lt.mpr htrust), if_neg]
      rw [← hdropped, hpass]
      decide
    rw [hcount] at hdetected hfalsePos
    exact ⟨hdetected, hfalsePos⟩

/-- **Step.** How a packet counts, from the conduct of its hop. -/
theorem Follows.attribution (h : Follows s.fleet log) (x : TamperedCall ι Name) :
    let conduct := log.at x.pipeline x.arrival.prevHopId
    let passed := (s.fleet.process P x.pipeline x.outgoing).1.forwards
    let s' := (tamperingHook P byzantineAttribution s x).2
    (passed = false → Detects s s') ∧
      (passed = true → conduct.count true ≤ 2 → Detects s s') ∧
      (passed = true → [true, true, true] <:+ conduct → Misses s s') := by
  intro conduct passed s'
  have hd : (0 : ℚ) ≤ 9 / 10 ∧ (9 / 10 : ℚ) ≤ 1 := by norm_num
  have htrust := h.trust P x.pipeline x.outgoing
  obtain ⟨hdetects, hmisses⟩ := detects_or_misses (P := P) s x
  refine ⟨fun hdrop => hdetects (Or.inl hdrop), fun hpass hfew => ?_, fun hpass hrow => ?_⟩
  · apply hdetects
    right
    have hle := ewma_evidence_le hd (y := 0) (by norm_num) (conduct ++ [passed])
    have hcount : (conduct ++ [passed]).count true ≤ 3 := by
      rw [hpass, List.count_append, List.count_singleton_self]
      omega
    have hpow : (9 / 10 : ℚ) ^ 3 ≤ (9 / 10) ^ (conduct ++ [passed]).count true :=
      pow_le_pow_of_le_one hd.1 hd.2 hcount
    calc _ = _ := htrust
      _ ≤ _ := hle
      _ < 3 / 10 := by linarith
  · apply hmisses hpass
    obtain ⟨earlier, hsplit⟩ := hrow
    have hge := le_ewma_evidence hd earlier 4
    have hlast : conduct ++ [passed] = earlier ++ List.replicate 4 true := by
      rw [hpass, ← hsplit, List.append_assoc]
      rfl
    calc (3 / 10 : ℚ) ≤ 1 - (9 / 10) ^ 4 := by norm_num
      _ ≤ _ := hge
      _ = _ := by rw [← hlast]; exact htrust.symm

/-- The log of a run. -/
def conductOf (run : List (Machine.Event (TamperingScript ι Name) (HookCall ι Name)
    (Outcome × CaccHeader))) : Conduct ι :=
  run.map fun e => ((e.inp.pipeline, e.inp.arrival.prevHopId), e.out.1.forwards)

theorem follows_final (hf : fleet.Fresh) (xs : List (HookCall ι Name)) :
    Follows (Machine.final (byzantineHook P) (start fleet) xs).fleet
      (conductOf (Machine.trace (byzantineHook P) (start fleet) xs)) := by
  induction xs using List.reverseRecOn with
  | nil => exact .of_fresh hf
  | append_singleton xs x ih =>
      rw [Machine.final_concat, Machine.trace_concat, conductOf, List.map_append,
        byzantineHook, fleet_tamperingHook]
      exact ih.process P x.pipeline (byzantineCall x).outgoing

/-- How a packet counts depends on its pipeline, its hop and whether it passes. -/
theorem attribution_congr {y : TamperedCall ι Name} (hpipeline : y.pipeline = x.pipeline)
    (hhop : y.arrival.prevHopId = x.arrival.prevHopId)
    (hforwards : (s.fleet.process P y.pipeline y.outgoing).1.forwards =
      (s.fleet.process P x.pipeline x.outgoing).1.forwards) :
    TamperingScript.attribution P byzantineAttribution s y =
      TamperingScript.attribution P byzantineAttribution s x := by
  have hattr : ∀ z : TamperedCall ι Name,
      TamperingScript.attribution P byzantineAttribution s z =
        if (s.fleet.process P z.pipeline z.outgoing).1.forwards = false then .detected
        else if ((s.fleet.pipelines z.pipeline).reputation.update z.arrival.prevHopId
            (s.fleet.process P z.pipeline z.outgoing).1.forwards).getTrustScore
              z.arrival.prevHopId < 3 / 10 then .detected
        else .falsePos := by
    intro z
    have hdropped : (s.fleet.process P z.pipeline z.outgoing).1.forwards = false ↔
        (s.fleet.process P z.pipeline z.outgoing).1.Dropped := by
      rw [Fleet.dropped_iff, Fleet.forwards_process]
    have hreputation : ((s.fleet.process P z.pipeline z.outgoing).2.pipelines
        z.pipeline).reputation = (s.fleet.pipelines z.pipeline).reputation.update
          z.arrival.prevHopId (s.fleet.process P z.pipeline z.outgoing).1.forwards := by
      rw [Fleet.pipelines_process_self, RouterPipeline.reputation_process,
        Fleet.forwards_process]
      rfl
    simp only [hdropped, ← hreputation]
    rfl
  rw [hattr, hattr, hforwards, hpipeline, hhop]

/-- **What the reputation detects.** In every run of S5 on fresh pipelines, a packet
that passes the checks counts as a detected attack if at most two packets of its hop
have passed there before, however many were dropped, and as a false positive if the
last three packets of its hop there have passed. Its PH plays no part in it: two packets
of a hop that both pass, or are both dropped, count alike. -/
theorem byzantine_by_trust (P : Primitives Name) (fleet : Fleet ι Name) (hf : fleet.Fresh)
    (xs : List (HookCall ι Name)) (x : HookCall ι Name) :
    let s := Machine.final (byzantineHook P) (start fleet) xs
    let conduct := (conductOf (Machine.trace (byzantineHook P) (start fleet) xs)).at
      x.pipeline x.arrival.prevHopId
    let r := byzantineHook P s x
    (r.1.1.forwards = false → Detects s r.2) ∧
      (r.1.1.forwards = true → conduct.count true ≤ 2 → Detects s r.2) ∧
      (r.1.1.forwards = true → [true, true, true] <:+ conduct → Misses s r.2) ∧
      ∀ y : HookCall ι Name, y.pipeline = x.pipeline →
        y.arrival.prevHopId = x.arrival.prevHopId →
        (byzantineHook P s y).1.1.forwards = r.1.1.forwards →
        (byzantineHook P s y).2.packetsDetected = r.2.packetsDetected ∧
          (byzantineHook P s y).2.packetsFalsePos = r.2.packetsFalsePos := by
  intro s conduct r
  obtain ⟨hdrop, hfew, hrow⟩ := (follows_final hf xs).attribution (P := P) (byzantineCall x)
  refine ⟨hdrop, hfew, hrow, fun y hpipeline hhop hforwards => ?_⟩
  have hattr : TamperingScript.attribution P byzantineAttribution s (byzantineCall y) =
      TamperingScript.attribution P byzantineAttribution s (byzantineCall x) :=
    attribution_congr hpipeline hhop hforwards
  obtain ⟨-, -, hdetected, hfalsePos⟩ :=
    counters_tamperingHook (P := P) (s := s) (x := byzantineCall x)
  obtain ⟨-, -, hdetected', hfalsePos'⟩ :=
    counters_tamperingHook (P := P) (s := s) (x := byzantineCall y)
  rw [hattr] at hdetected' hfalsePos'
  exact ⟨hdetected'.trans hdetected.symm, hfalsePos'.trans hfalsePos.symm⟩

/-- A packet of hop 7 whose tag fits when the hook has added 10 to its PH. -/
def sampleCall (seqn : UInt8) : HookCall Unit (List UInt8) :=
  ⟨(), sampleArrival { sampleHeader 0 0 seqn with ph := 246 }⟩

/-- A packet of hop 7 that is dropped. -/
def sampleDroppedCall : HookCall Unit (List UInt8) :=
  ⟨(), sampleArrival { sampleHeader 0 0 1 with ph := 0 }⟩

/-- The third packet of a hop that passes, with one dropped in between, counts as
detected, and the fifth as a false positive; a dropped one counts as detected. -/
theorem byzantine_by_trust_sample :
    let s := Machine.final (byzantineHook samplePrimitives) (start sampleFleet)
      [sampleCall 0, sampleDroppedCall, sampleCall 1]
    let s' := Machine.final (byzantineHook samplePrimitives) (start sampleFleet)
      [sampleCall 0, sampleDroppedCall, sampleCall 1, sampleCall 2, sampleCall 128]
    Detects s (byzantineHook samplePrimitives s (sampleCall 2)).2 ∧
      Misses s' (byzantineHook samplePrimitives s' (sampleCall 129)).2 ∧
      Detects s' (byzantineHook samplePrimitives s' sampleDroppedCall).2 :=
  ⟨(byzantine_by_trust samplePrimitives sampleFleet fresh_sampleFleet _ _).2.1
      (by decide +kernel) (by decide +kernel),
    (byzantine_by_trust samplePrimitives sampleFleet fresh_sampleFleet _ _).2.2.1
      (by decide +kernel) ⟨[true, false], by decide +kernel⟩,
    (byzantine_by_trust samplePrimitives sampleFleet fresh_sampleFleet _ _).1
      (by decide +kernel)⟩

/-! ## Runs in which every packet passes -/

/-- One more element changes a sum over the counts in a list at one place. -/
theorem sum_count_concat {α : Type} [DecidableEq α] [BEq α] [LawfulBEq α] {f : ℕ → ℕ}
    (hf : f 0 = 0) (l : List α) (a : α) :
    ∑ b ∈ (l ++ [a]).toFinset, f ((l ++ [a]).count b) + f (l.count a) =
      ∑ b ∈ l.toFinset, f (l.count b) + f (l.count a + 1) := by
  have hmem : a ∈ (l ++ [a]).toFinset := by simp
  have hself : (l ++ [a]).count a = l.count a + 1 := by simp
  have hothers : ∀ b ∈ (l ++ [a]).toFinset.erase a,
      f ((l ++ [a]).count b) = f (l.count b) := by
    intro b hb
    have hne : a ≠ b := (Finset.ne_of_mem_erase hb).symm
    rw [List.count_append, List.count_singleton, if_neg (by simpa using hne), add_zero]
  have hsupport : ∑ b ∈ l.toFinset, f (l.count b) =
      ∑ b ∈ (l ++ [a]).toFinset, f (l.count b) := by
    refine Finset.sum_subset (fun b hb => by simp_all) fun b _ hb => ?_
    rw [List.count_eq_zero_of_not_mem (by simpa using hb), hf]
  rw [hsupport, ← Finset.add_sum_erase _ _ hmem, ← Finset.add_sum_erase _ _ hmem,
    Finset.sum_congr rfl hothers, hself]
  omega

/-- The hop of a call, at its pipeline. -/
def neighbour (x : HookCall ι Name) : ι × UInt32 := (x.pipeline, x.arrival.prevHopId)

theorem conduct_of_passes {xs : List (HookCall ι Name)}
    (hpass : ∀ e ∈ Machine.trace (byzantineHook P) (start fleet) xs, e.out.1.forwards = true)
    (i : ι) (hop : UInt32) :
    (conductOf (Machine.trace (byzantineHook P) (start fleet) xs)).at i hop =
      List.replicate ((xs.map neighbour).count (i, hop)) true := by
  have hlog : conductOf (Machine.trace (byzantineHook P) (start fleet) xs) =
      (xs.map neighbour).map fun h => (h, true) := by
    have hinp : (Machine.trace (byzantineHook P) (start fleet) xs).map Machine.Event.inp = xs :=
      Machine.map_inp_trace _ _
    conv_rhs => rw [← hinp]
    rw [conductOf, List.map_map, List.map_map]
    refine List.map_congr_left fun e he => ?_
    rw [hpass e he]
    rfl
  rw [hlog, List.eq_replicate_iff]
  constructor
  · rw [Conduct.at, List.filter_map, List.map_map, List.length_map, List.count,
      List.countP_eq_length_filter]
    refine congrArg _ (List.filter_congr fun h _ => ?_)
    rw [Bool.eq_iff_iff, beq_iff_eq]
    exact decide_eq_true_iff
  · intro b hb
    simp only [Conduct.at, List.mem_map, List.mem_filter] at hb
    obtain ⟨_, ⟨⟨h, _, rfl⟩, _⟩, rfl⟩ := hb
    rfl

/-- **Totals of S5.** In a run on fresh pipelines in which every packet passes, the
first three packets of each hop at each pipeline count as detected attacks, and all
the others as false positives. -/
theorem byzantine_totals (P : Primitives Name) (fleet : Fleet ι Name) (hf : fleet.Fresh)
    (xs : List (HookCall ι Name))
    (hpass : ∀ e ∈ Machine.trace (byzantineHook P) (start fleet) xs, e.out.1.forwards = true) :
    let s := Machine.final (byzantineHook P) (start fleet) xs
    let hops := xs.map neighbour
    s.packetsDetected = .ofNat (∑ h ∈ hops.toFinset, min 3 (hops.count h)) ∧
      s.packetsFalsePos = .ofNat (∑ h ∈ hops.toFinset, (hops.count h - 3)) := by
  induction xs using List.reverseRecOn with
  | nil => exact ⟨rfl, rfl⟩
  | append_singleton xs x ih =>
      rw [Machine.trace_concat, List.forall_mem_append, List.forall_mem_singleton] at hpass
      obtain ⟨hpass, hlast⟩ := hpass
      obtain ⟨hdetected, hfalsePos⟩ := ih hpass
      obtain ⟨-, hdetects, hmisses⟩ :=
        (follows_final hf xs).attribution (P := P) (byzantineCall x)
      have hconduct : (conductOf (Machine.trace (byzantineHook P) (start fleet) xs)).at
          (byzantineCall x).pipeline (byzantineCall x).arrival.prevHopId =
            List.replicate ((xs.map neighbour).count (neighbour x)) true :=
        conduct_of_passes hpass _ _
      rw [hconduct] at hdetects hmisses
      simp only [Machine.final_concat, List.map_append, List.map_cons, List.map_nil]
      have hmin := sum_count_concat (f := fun c => min 3 c) rfl (xs.map neighbour) (neighbour x)
      have hsub := sum_count_concat (f := fun c => c - 3) rfl (xs.map neighbour) (neighbour x)
      generalize (xs.map neighbour).count (neighbour x) = k at hdetects hmisses hmin hsub
      by_cases hfew : k ≤ 2
      · obtain ⟨hcount, hsame⟩ := hdetects hlast (by rwa [List.count_replicate_self])
        refine ⟨?_, ?_⟩
        · rw [byzantineHook, hcount, hdetected, ← UInt64.ofNat_one, ← UInt64.ofNat_add]
          congr 1
          omega
        · rw [byzantineHook, hsame, hfalsePos]
          congr 1
          omega
      · have hrow : [true, true, true] <:+ List.replicate k true :=
          ⟨List.replicate (k - 3) true, by
            rw [show k = k - 3 + 3 by omega, List.replicate_add, Nat.add_sub_cancel]
            rfl⟩
        obtain ⟨hsame, hcount⟩ := hmisses hlast hrow
        refine ⟨?_, ?_⟩
        · rw [byzantineHook, hsame, hdetected]
          congr 1
          omega
        · rw [byzantineHook, hcount, hfalsePos, ← UInt64.ofNat_one, ← UInt64.ofNat_add]
          congr 1
          omega

/-- Five packets of a hop. -/
theorem byzantine_totals_sample :
    let s := Machine.final (byzantineHook samplePrimitives) (start sampleFleet)
      ([0, 1, 2, 128, 129].map sampleCall)
    s.packetsDetected = 3 ∧ s.packetsFalsePos = 2 := by
  obtain ⟨hdetected, hfalsePos⟩ := byzantine_totals samplePrimitives sampleFleet
    fresh_sampleFleet ([0, 1, 2, 128, 129].map sampleCall) (by decide +kernel)
  exact ⟨hdetected.trans (by decide +kernel), hfalsePos.trans (by decide +kernel)⟩

end TamperingScript
end CaccSecure
