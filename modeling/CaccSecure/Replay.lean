import CaccSecure.RouterPipeline

/-!
# Replay of captured headers

An attacker replays copies of headers captured earlier. A set of SEQNs that is
closed under what the attacker can make the router store, and from which a
header is never fresh, caps the number of its accepted copies at one. Two
SEQNs have such sets unless they lie exactly 128 apart, where Algorithm 2
takes each for newer than the other.
-/

namespace CaccSecure
namespace RouterPipeline

variable {Name : Type} [DecidableEq Name]

/-- An event that accepts a copy of `hdr` for the name `n`. -/
def acceptsCopy (n : Name) (hdr : CaccHeader)
    (e : Machine.Event (RouterPipeline Name × Rng) (Arrival Name) Outcome) : Bool :=
  e.out.forwards && (e.inp.contentName = n && e.inp.hdr = hdr)

/-- The attacker's run: every packet for `n` is a copy of `h₁` or of `h₂`, and
the packets for other names do not evict `n`. -/
structure ReplayRun (P : Primitives Name) (s : RouterPipeline Name × Rng) (n : Name)
    (h₁ h₂ : CaccHeader) (xs : List (Arrival Name)) : Prop where
  copies : ∀ a ∈ xs, a.contentName = n → a.hdr = h₁ ∨ a.hdr = h₂
  kept : ∀ e ∈ Machine.trace (process P) s xs, e.inp.contentName ≠ n →
    e.pre.1.seqCache.lastSeqn n ≠ none → e.post.1.seqCache.lastSeqn n ≠ none

instance (P : Primitives Name) (s : RouterPipeline Name × Rng) (n : Name)
    (h₁ h₂ : CaccHeader) (xs : List (Arrival Name)) :
    Decidable (ReplayRun P s n h₁ h₂ xs) :=
  decidable_of_iff
    ((∀ a ∈ xs, a.contentName = n → a.hdr = h₁ ∨ a.hdr = h₂) ∧
      ∀ e ∈ Machine.trace (process P) s xs, e.inp.contentName ≠ n →
        e.pre.1.seqCache.lastSeqn n ≠ none → e.post.1.seqCache.lastSeqn n ≠ none)
    ⟨fun h => ⟨h.1, h.2⟩, fun h => ⟨h.copies, h.kept⟩⟩

variable {P : Primitives Name} {s : RouterPipeline Name × Rng} {n : Name}
  {h₁ h₂ hdr : CaccHeader} {xs : List (Arrival Name)}
  {e : Machine.Event (RouterPipeline Name × Rng) (Arrival Name) Outcome}

theorem ReplayRun.symm (h : ReplayRun P s n h₁ h₂ xs) : ReplayRun P s n h₂ h₁ xs where
  copies a ha hn := (h.copies a ha hn).symm
  kept := h.kept

/-- In the attacker's run the SEQN of `n` moves only when a copy is accepted,
to the SEQN of the copy, which is fresh after the one stored before. -/
theorem ReplayRun.lastSeqn_cases (h : ReplayRun P s n h₁ h₂ xs)
    (he : e ∈ Machine.trace (process P) s xs)
    {last : UInt8} (hlast : e.pre.1.seqCache.lastSeqn n = some last) :
    (e.post.1.seqCache.lastSeqn n = some last ∧
      ¬ (e.out.forwards = true ∧ e.inp.contentName = n)) ∨
    (∃ hdr, (hdr = h₁ ∨ hdr = h₂) ∧ e.inp.hdr = hdr ∧
      SeqCache.Fresh last hdr.seqn ∧
      e.post.1.seqCache.lastSeqn n = some hdr.seqn) := by
  have hstep := Machine.step_of_mem_trace he
  have hout : e.out.forwards = e.pre.1.passes P e.inp := by
    rw [← forwards_process, hstep]
  by_cases hcopy : e.pre.1.passes P e.inp = true ∧ e.inp.contentName = n
  · obtain ⟨hpass, rfl⟩ := hcopy
    have hself := lastSeqn_process_self hpass
    rw [hstep] at hself
    exact Or.inr ⟨e.inp.hdr, h.copies _ (Machine.inp_mem_of_mem_trace he) rfl, rfl,
      fresh_of_passes hpass hlast, hself⟩
  · have hdrop : e.inp.contentName = n → e.pre.1.passes P e.inp = false := by
      intro hn
      rw [← Bool.not_eq_true]
      exact fun hpass => hcopy ⟨hpass, hn⟩
    have hframe := lastSeqn_process hdrop
    rw [hstep, hlast] at hframe
    refine Or.inl ⟨hframe.resolve_right fun hnone => ?_, by rwa [hout]⟩
    by_cases hn : e.inp.contentName = n
    · have hsame := seqCache_of_not_passes (hdrop hn)
      rw [hstep] at hsame
      rw [hsame, hlast] at hnone
      cases hnone
    · exact h.kept e he hn (by simp [hlast]) hnone

/-- The SEQN stored for `n` is one of `D`. -/
def StoredIn (D : List UInt8) (n : Name) (s : RouterPipeline Name × Rng) : Prop :=
  ∃ d ∈ D, s.1.seqCache.lastSeqn n = some d

instance (D : List UInt8) (n : Name) (s : RouterPipeline Name × Rng) :
    Decidable (StoredIn D n s) :=
  inferInstanceAs (Decidable (∃ d ∈ D, _))

variable {D : List UInt8}

/-- An accepted copy is stored. -/
theorem storedIn_of_acceptsCopy (he : e ∈ Machine.trace (process P) s xs)
    (hself : hdr.seqn ∈ D) (hacc : acceptsCopy n hdr e = true) :
    StoredIn D n e.post := by
  have hstep := Machine.step_of_mem_trace he
  obtain ⟨hout, rfl, rfl⟩ : e.out.forwards = true ∧ e.inp.contentName = n ∧
      e.inp.hdr = hdr := by
    simpa [acceptsCopy] using hacc
  have hpass : e.pre.1.passes P e.inp = true := by
    rw [← forwards_process, hstep]
    exact hout
  have hnew := lastSeqn_process_self hpass
  rw [hstep] at hnew
  exact ⟨e.inp.hdr.seqn, hself, hnew⟩

/-- No accepted copy leaves a closed set. -/
theorem ReplayRun.storedIn_post (h : ReplayRun P s n h₁ h₂ xs)
    (he : e ∈ Machine.trace (process P) s xs)
    (hclosed : ∀ h', h' = h₁ ∨ h' = h₂ →
      ∀ d ∈ D, SeqCache.Fresh d h'.seqn → h'.seqn ∈ D)
    (hin : StoredIn D n e.pre) : StoredIn D n e.post := by
  obtain ⟨d, hd, hlast⟩ := hin
  rcases h.lastSeqn_cases he hlast with ⟨hsame, -⟩ | ⟨h', hh', -, hfresh, hnew⟩
  · exact ⟨d, hd, hsame⟩
  · exact ⟨h'.seqn, hclosed h' hh' d hd hfresh, hnew⟩

/-- While the stored SEQN is in `D`, no copy of `hdr` is accepted. -/
theorem ReplayRun.not_acceptsCopy (h : ReplayRun P s n h₁ h₂ xs)
    (he : e ∈ Machine.trace (process P) s xs)
    (hstale : ∀ d ∈ D, ¬ SeqCache.Fresh d hdr.seqn) (hin : StoredIn D n e.pre) :
    ¬ acceptsCopy n hdr e = true := by
  obtain ⟨d, hd, hlast⟩ := hin
  intro hacc
  obtain ⟨hout, hn, hhdr⟩ : e.out.forwards = true ∧ e.inp.contentName = n ∧
      e.inp.hdr = hdr := by
    simpa [acceptsCopy] using hacc
  rcases h.lastSeqn_cases he hlast with ⟨-, hrej⟩ | ⟨h', -, heq, hfresh, -⟩
  · exact hrej ⟨hout, hn⟩
  · rw [← heq, hhdr] at hfresh
    exact hstale d hd hfresh

/-- **One copy at most.** `D` is a set of SEQNs that contains the SEQN of
`hdr`, from which `hdr` is not fresh, and which no accepted copy leaves. -/
theorem ReplayRun.countP_acceptsCopy_le_one (h : ReplayRun P s n h₁ h₂ xs)
    (hself : hdr.seqn ∈ D) (hstale : ∀ d ∈ D, ¬ SeqCache.Fresh d hdr.seqn)
    (hclosed : ∀ h', h' = h₁ ∨ h' = h₂ →
      ∀ d ∈ D, SeqCache.Fresh d h'.seqn → h'.seqn ∈ D) :
    (Machine.trace (process P) s xs).countP (acceptsCopy n hdr) ≤ 1 := by
  -- the potential is spent once the stored SEQN is in `D`
  let φ : RouterPipeline Name × Rng → ℕ := fun s => if StoredIn D n s then 0 else 1
  have hφ : ∀ s, φ s ≤ 1 := by
    intro s
    show (if StoredIn D n s then 0 else 1) ≤ 1
    split_ifs <;> decide
  suffices hcost : ∀ e ∈ Machine.trace (process P) s xs,
      (acceptsCopy n hdr e).toNat + φ e.post ≤ φ e.pre from
    Nat.le_trans (Machine.countP_trace_le hcost) (hφ s)
  intro e he
  by_cases hin : StoredIn D n e.pre
  · have hno := Bool.eq_false_iff.mpr (h.not_acceptsCopy he hstale hin)
    have hzero : φ e.post = 0 := if_pos (h.storedIn_post he hclosed hin)
    rw [hno, hzero]
    exact Nat.zero_le _
  · have hone : φ e.pre = 1 := if_neg hin
    rw [hone]
    cases hacc : acceptsCopy n hdr e with
    | false => simpa using hφ e.post
    | true =>
        have hzero : φ e.post = 0 := if_pos (storedIn_of_acceptsCopy he hself hacc)
        rw [hzero]
        rfl

/-- The two sets, when the second SEQN is newer than the first. -/
theorem ReplayRun.at_most_once_of_fresh (h : ReplayRun P s n h₁ h₂ xs)
    (hnewer : SeqCache.Fresh h₁.seqn h₂.seqn)
    (holder : ¬ SeqCache.Fresh h₂.seqn h₁.seqn) :
    (Machine.trace (process P) s xs).countP (acceptsCopy n h₁) ≤ 1 ∧
      (Machine.trace (process P) s xs).countP (acceptsCopy n h₂) ≤ 1 := by
  constructor
  · refine h.countP_acceptsCopy_le_one (D := [h₁.seqn, h₂.seqn]) (by simp) ?_ ?_
    · intro d hd
      rcases List.mem_pair.mp hd with rfl | rfl
      · exact Circular.newer_irrefl
      · exact holder
    · rintro h' (rfl | rfl) d _ _ <;> simp
  · refine h.countP_acceptsCopy_le_one (D := [h₂.seqn]) (by simp) ?_ ?_
    · intro d hd
      rw [List.mem_singleton.mp hd]
      exact Circular.newer_irrefl
    · rintro h' (rfl | rfl) d hd hfresh
      · rw [List.mem_singleton.mp hd] at hfresh
        exact absurd hfresh holder
      · exact List.mem_singleton_self _

/-- **No ping-pong.** Of two captured headers whose SEQNs differ, and by other
than 128, the router accepts at most one copy each. Only SEQNs that are 128 apart
are each newer than the other. -/
theorem replay_at_most_once (P : Primitives Name) (s : RouterPipeline Name × Rng)
    (n : Name) (h₁ h₂ : CaccHeader) (xs : List (Arrival Name))
    (hne : h₁.seqn ≠ h₂.seqn)
    (hopp : SeqCache.circularDiff h₁.seqn h₂.seqn ≠ 128)
    (h : ReplayRun P s n h₁ h₂ xs) :
    (Machine.trace (process P) s xs).countP (acceptsCopy n h₁) ≤ 1 ∧
      (Machine.trace (process P) s xs).countP (acceptsCopy n h₂) ≤ 1 ∧
      ∀ a b : UInt8, SeqCache.Fresh a b ∧ SeqCache.Fresh b a ↔
        SeqCache.circularDiff a b = 128 := by
  have hone : ¬ (SeqCache.Fresh h₁.seqn h₂.seqn ∧ SeqCache.Fresh h₂.seqn h₁.seqn) :=
    mt SeqCache.fresh_and_fresh_iff.mp hopp
  rw [← and_assoc]
  refine ⟨?_, fun a b => SeqCache.fresh_and_fresh_iff⟩
  rcases Circular.newer_or_newer (h := 128) h₁.seqn.toNat_lt h₂.seqn.toNat_lt
    (fun heq => hne (UInt8.toNat_inj.mp heq)) with hnewer | hnewer
  · exact h.at_most_once_of_fresh hnewer fun hback => hone ⟨hnewer, hback⟩
  · exact (h.symm.at_most_once_of_fresh hnewer fun hback => hone ⟨hback, hnewer⟩).symm

theorem replay_at_most_once_sample :
    let xs := [sampleHeader 0 0 1, sampleHeader 0 0 2, sampleHeader 0 0 1,
      sampleHeader 0 0 2].map sampleArrival
    (Machine.trace (process samplePrimitives) (sampleRouter 100) xs).countP
        (acceptsCopy sampleName (sampleHeader 0 0 1)) ≤ 1 ∧
      (Machine.trace (process samplePrimitives) (sampleRouter 100) xs).countP
        (acceptsCopy sampleName (sampleHeader 0 0 2)) ≤ 1 := by
  intro xs
  have honce := replay_at_most_once samplePrimitives (sampleRouter 100) sampleName
    (sampleHeader 0 0 1) (sampleHeader 0 0 2) xs (by decide) (by decide)
    (by decide +kernel)
  exact ⟨honce.1, honce.2.1⟩

/-- **Ping-pong.** SEQNs 128 apart are each newer than the other: captured
headers with SEQNs 0 and 128 are accepted again and again. -/
theorem replay_ping_pong :
    ¬ ∀ (P : Primitives (List UInt8)) (s : RouterPipeline (List UInt8) × Rng)
      (n : List UInt8) (h₁ h₂ : CaccHeader) (xs : List (Arrival (List UInt8))),
      Reachable P s → s.1.verifyHmac P n h₁ = true → s.1.verifyHmac P n h₂ = true →
      h₁.seqn ≠ h₂.seqn → ReplayRun P s n h₁ h₂ xs →
      (Machine.trace (process P) s xs).countP (acceptsCopy n h₁) ≤ 1 ∧
        (Machine.trace (process P) s xs).countP (acceptsCopy n h₂) ≤ 1 := by
  intro hclaim
  -- the state after both headers were delivered once
  have hreach : Reachable samplePrimitives (Machine.final (process samplePrimitives)
      (sampleRouter 100) ([sampleHeader 0 0 0, sampleHeader 0 0 128].map sampleArrival)) :=
    (Reachable.new _ _ _ _ _ _ _).final _
  have hbound := hclaim _ _ sampleName (sampleHeader 0 0 0) (sampleHeader 0 0 128)
    ([sampleHeader 0 0 0, sampleHeader 0 0 128, sampleHeader 0 0 0,
      sampleHeader 0 0 128].map sampleArrival) hreach (by decide +kernel)
    (by decide +kernel) (by decide) (by decide +kernel)
  have htwo : (Machine.trace (process samplePrimitives)
      (Machine.final (process samplePrimitives) (sampleRouter 100)
        ([sampleHeader 0 0 0, sampleHeader 0 0 128].map sampleArrival))
      ([sampleHeader 0 0 0, sampleHeader 0 0 128, sampleHeader 0 0 0,
        sampleHeader 0 0 128].map sampleArrival)).countP
      (acceptsCopy sampleName (sampleHeader 0 0 0)) = 2 := by
    decide +kernel
  omega

end RouterPipeline
end CaccSecure
