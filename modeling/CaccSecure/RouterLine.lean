import CaccSecure.HeaderCodec
import CaccSecure.Network
import CaccSecure.SeqCacheHistory
import Mathlib.Data.Fintype.EquivFin
import Mathlib.Data.Stream.Init

/-!
# A line of routers

Every Data packet traverses the pipeline of each router on its way. A router
parses the header bytes, processes the packet and, unless it drops it, hands the
bytes on unchanged. All routers of a line see the packets that the first one lets
through, in the same order, so their SEQN caches remember the same history, each
as far back as it has room. The first router thus answers for the whole line
exactly when no router behind it remembers more names.
-/

namespace CaccSecure
namespace RouterLine

variable {Name : Type} [DecidableEq Name]

/-- A packet with its header bytes, and for the routers that it may reach, in
order, the hop it comes from there and what the clocks show. -/
structure Journey (Name : Type) where
  contentName : Name
  rawHeader : Vector UInt8 7
  stops : Stream' (UInt32 × Clock)

/-- The packet as the next router processes it. -/
def Journey.arrival (x : Journey Name) : Arrival Name :=
  ⟨x.contentName, RouterPipeline.parse (some x.rawHeader), x.stops.head.1, x.stops.head.2⟩

/-- The packet behind that router. -/
def Journey.onward (x : Journey Name) : Journey Name := { x with stops := x.stops.tail }

/-- The packet travels along the line until a router drops it. -/
def forward (P : Primitives Name) : List (RouterPipeline Name) → Rng → Journey Name →
    List Outcome × List (RouterPipeline Name) × Rng
  | [], rng, _ => ([], [], rng)
  | p :: line, rng, x =>
      let (o, p, rng) := RouterPipeline.process P (p, rng) x.arrival
      if o.forwards then
        let (os, line, rng) := forward P line rng x.onward
        (o :: os, p :: line, rng)
      else ([o], p :: line, rng)

/-- A packet enters the line; the result is its outcome at each router it reaches. -/
def step (P : Primitives Name) (s : List (RouterPipeline Name) × Rng) (x : Journey Name) :
    List Outcome × (List (RouterPipeline Name) × Rng) :=
  forward P s.1 s.2 x

/-- New routers in a line, all with the same key. -/
def routers (key : List UInt8) (params : List Network.Parameters) :
    List (RouterPipeline Name) :=
  params.map fun c => c.router key

/-- A packet that the first of `k` routers lets through is let through by all. -/
def EndToEnd (k : ℕ) (os : List Outcome) : Prop :=
  ∀ o, os.head? = some o → o.forwards = true →
    os.length = k ∧ ∀ o ∈ os, o.forwards = true

variable {P : Primitives Name} {p : RouterPipeline Name} {line : List (RouterPipeline Name)}
  {rng : Rng} {x : Journey Name} {key : List UInt8} {A : List (Name × UInt8)}

/-! ## One packet -/

/-- The checks look at the name and the bytes alone. -/
theorem passes_onward : p.passes P x.onward.arrival = p.passes P x.arrival := rfl

theorem forward_of_dropped (h : p.passes P x.arrival = false) :
    forward P (p :: line) rng x =
      ([(RouterPipeline.process P (p, rng) x.arrival).1],
        (RouterPipeline.process P (p, rng) x.arrival).2.1 :: line,
        (RouterPipeline.process P (p, rng) x.arrival).2.2) := by
  have hout := RouterPipeline.forwards_process (P := P) (s := (p, rng)) (a := x.arrival)
  rw [h] at hout
  simp only [forward, hout, Bool.false_eq_true, if_false]

theorem forward_of_passes (h : p.passes P x.arrival = true) :
    forward P (p :: line) rng x =
      ((RouterPipeline.process P (p, rng) x.arrival).1 ::
          (forward P line (RouterPipeline.process P (p, rng) x.arrival).2.2 x.onward).1,
        (RouterPipeline.process P (p, rng) x.arrival).2.1 ::
          (forward P line (RouterPipeline.process P (p, rng) x.arrival).2.2 x.onward).2.1,
        (forward P line (RouterPipeline.process P (p, rng) x.arrival).2.2 x.onward).2.2) := by
  have hout := RouterPipeline.forwards_process (P := P) (s := (p, rng)) (a := x.arrival)
  rw [h] at hout
  simp only [forward, hout, if_true]

/-- A packet reaches the end exactly when it passes the checks of every router. -/
theorem forward_all_iff :
    ((forward P line rng x).1.length = line.length ∧
      ∀ o ∈ (forward P line rng x).1, o.forwards = true) ↔
    ∀ p ∈ line, p.passes P x.arrival = true := by
  induction line generalizing rng x with
  | nil => simp [forward]
  | cons p line ih =>
      have hout := RouterPipeline.forwards_process (P := P) (s := (p, rng)) (a := x.arrival)
      cases hpass : p.passes P x.arrival with
      | false =>
          rw [hpass] at hout
          rw [forward_of_dropped hpass]
          simp [hout, hpass]
      | true =>
          rw [hpass] at hout
          have hrest := @ih (RouterPipeline.process P (p, rng) x.arrival).2.2 x.onward
          simp only [passes_onward] at hrest
          rw [forward_of_passes hpass, List.forall_mem_cons, List.forall_mem_cons, ← hrest]
          simp [hout, hpass]

theorem endToEnd_iff (p : RouterPipeline Name) (line : List (RouterPipeline Name)) :
    EndToEnd (line.length + 1) (forward P (p :: line) rng x).1 ↔
      (p.passes P x.arrival = true → ∀ q ∈ line, q.passes P x.arrival = true) := by
  have hout := RouterPipeline.forwards_process (P := P) (s := (p, rng)) (a := x.arrival)
  have hall : (_ ∧ ∀ o ∈ (forward P (p :: line) rng x).1, _) ↔ _ := forward_all_iff
  rw [List.forall_mem_cons, List.length_cons] at hall
  cases hpass : p.passes P x.arrival with
  | false =>
      rw [hpass] at hout
      rw [forward_of_dropped hpass]
      simp [EndToEnd, hout]
  | true =>
      rw [hpass] at hout hall
      have hhead : (forward P (p :: line) rng x).1.head? =
          some (RouterPipeline.process P (p, rng) x.arrival).1 := by
        rw [forward_of_passes hpass]
        rfl
      rw [EndToEnd, hhead, hall]
      simp [hout]

/-! ## All routers remember the same history -/

/-- The router has the key, and its SEQN cache holds what the accepted packets
`A` say. -/
def Follows (key : List UInt8) (A : List (Name × UInt8)) (p : RouterPipeline Name)
    (c : Network.Parameters) : Prop :=
  p.security = ⟨key⟩ ∧ SeqCache.Remembers c.maxTrackedEntries p.seqCache A

variable {c d : Network.Parameters} {params : List Network.Parameters}

theorem Follows.new : Follows key [] (c.router key : RouterPipeline Name) c :=
  ⟨rfl, SeqCache.remembers_new _⟩

/-- The packet is authentic, and fresh as far as the history says. -/
theorem Follows.passes_iff (h : Follows key A p c) : p.passes P x.arrival = true ↔
    Authentic P key x.contentName x.arrival.hdr ∧
      ∀ last, SeqCache.latestSeqn c.maxTrackedEntries A x.contentName = some last →
        SeqCache.Fresh last x.arrival.hdr.seqn := by
  rw [RouterPipeline.passes_eq_true_iff, RouterPipeline.verifyHmac_iff_authentic h.1,
    SeqCache.validateSequence_fst, h.2.lastSeqn]
  rfl

/-- A router with no more room than another remembers nothing that the other
has forgotten. -/
theorem latestSeqn_of_le {K K' : ℕ} (hle : K ≤ K') {n : Name} {last : UInt8}
    (h : SeqCache.latestSeqn K A n = some last) : SeqCache.latestSeqn K' A n = some last := by
  simp only [SeqCache.latestSeqn] at h ⊢
  split_ifs at h with hmem
  have hmem' : n ∈ SeqCache.recentNames K' A := List.take_subset_take_left _ hle hmem
  rw [if_pos hmem', h]

theorem Follows.passes_of_le (h : Follows key A p c) {q : RouterPipeline Name}
    (hq : Follows key A q d) (hle : d.maxTrackedEntries ≤ c.maxTrackedEntries)
    (hpass : p.passes P x.arrival = true) : q.passes P x.arrival = true := by
  obtain ⟨hauth, hfresh⟩ := h.passes_iff.mp hpass
  exact hq.passes_iff.mpr ⟨hauth, fun last hlast => hfresh last (latestSeqn_of_le hle hlast)⟩

theorem Follows.process (hK : 1 ≤ c.maxTrackedEntries) (h : Follows key A p c)
    (hpass : p.passes P x.arrival = true) :
    Follows key ((x.contentName, x.arrival.hdr.seqn) :: A)
      (RouterPipeline.process P (p, rng) x.arrival).2.1 c := by
  refine ⟨RouterPipeline.security_process.trans h.1, ?_⟩
  rw [RouterPipeline.seqCache_of_passes hpass]
  exact h.2.accept hK (RouterPipeline.passes_eq_true_iff.mp hpass).2

/-- A packet that every router lets through becomes part of every history. -/
theorem follows_forward (hK : ∀ c ∈ params, 1 ≤ c.maxTrackedEntries)
    (h : List.Forall₂ (Follows key A) line params)
    (hpass : ∀ p ∈ line, p.passes P x.arrival = true) :
    List.Forall₂ (Follows key ((x.contentName, x.arrival.hdr.seqn) :: A))
      (forward P line rng x).2.1 params := by
  induction h generalizing rng x with
  | nil => exact .nil
  | cons hp hrest ih =>
      rw [List.forall_mem_cons] at hK hpass
      rw [forward_of_passes hpass.1]
      exact .cons (hp.process hK.1 hpass.1) (ih (x := x.onward) hK.2 hpass.2)

theorem Follows.of_dropped (h : Follows key A p c) (hdrop : p.passes P x.arrival = false) :
    Follows key A (RouterPipeline.process P (p, rng) x.arrival).2.1 c := by
  refine ⟨RouterPipeline.security_process.trans h.1, ?_⟩
  rw [RouterPipeline.seqCache_of_not_passes hdrop]
  exact h.2

theorem follows_routers (key : List UInt8) (params : List Network.Parameters) :
    List.Forall₂ (Follows key []) (routers key params : List (RouterPipeline Name)) params := by
  induction params with
  | nil => exact .nil
  | cons c params ih => exact .cons .new ih

theorem exists_parameters {q : RouterPipeline Name}
    (h : List.Forall₂ (Follows key A) line params) (hq : q ∈ line) :
    ∃ d ∈ params, Follows key A q d := by
  induction h with
  | nil => simp at hq
  | cons hhead _ ih =>
      rcases List.mem_cons.mp hq with rfl | hq
      · exact ⟨_, List.mem_cons_self, hhead⟩
      · obtain ⟨d, hd, hqd⟩ := ih hq
        exact ⟨d, List.mem_cons_of_mem _ hd, hqd⟩

theorem exists_router (h : List.Forall₂ (Follows key A) line params) (hd : d ∈ params) :
    ∃ q ∈ line, Follows key A q d := by
  induction h with
  | nil => simp at hd
  | cons hhead _ ih =>
      rcases List.mem_cons.mp hd with rfl | hd
      · exact ⟨_, List.mem_cons_self, hhead⟩
      · obtain ⟨q, hq, hqd⟩ := ih hd
        exact ⟨q, List.mem_cons_of_mem _ hq, hqd⟩

/-! ## The first router has the most room -/

/-- The state of a line whose routers share a history. -/
def InStep (key : List UInt8) (params : List Network.Parameters)
    (s : List (RouterPipeline Name) × Rng) : Prop :=
  ∃ A, List.Forall₂ (Follows key A) s.1 params

/-- What passes the first router passes all of them, and what it drops changes
no history. -/
theorem InStep.step {s : List (RouterPipeline Name) × Rng} (hc : 1 ≤ c.maxTrackedEntries)
    (hK : ∀ d ∈ params, 1 ≤ d.maxTrackedEntries)
    (hle : ∀ d ∈ params, d.maxTrackedEntries ≤ c.maxTrackedEntries)
    (h : InStep key (c :: params) s) :
    InStep key (c :: params) (RouterLine.step P s x).2 ∧
      EndToEnd (params.length + 1) (RouterLine.step P s x).1 := by
  obtain ⟨line, rng⟩ := s
  obtain ⟨A, hA⟩ := h
  obtain ⟨p, line, hp, hline, rfl⟩ := List.forall₂_cons_right_iff.mp hA
  have hall : p.passes P x.arrival = true → ∀ q ∈ line, q.passes P x.arrival = true := by
    intro hpass q hq
    obtain ⟨d, hd, hqd⟩ := exists_parameters hline hq
    exact hp.passes_of_le hqd (hle d hd) hpass
  constructor
  · cases hpass : p.passes P x.arrival with
    | false =>
        refine ⟨A, ?_⟩
        rw [RouterLine.step, forward_of_dropped hpass]
        exact .cons (hp.of_dropped hpass) hline
    | true =>
        exact ⟨_, follows_forward (List.forall_mem_cons.mpr ⟨hc, hK⟩) hA
          (List.forall_mem_cons.mpr ⟨hpass, hall hpass⟩)⟩
  · rw [← hline.length_eq]
    exact (endToEnd_iff p line).mpr hall

/-! ## A router further on has more room -/

/-- The packet with which the producer first sends the name. -/
def firstPacket (P : Primitives Name) (key : List UInt8) (n : Name) : Journey Name where
  contentName := n
  rawHeader := (RouterPipeline.serialize (issuedHeader P key n 1)
    (some (Vector.replicate 7 0))).get rfl
  stops := Stream'.const (0, ⟨0, 0⟩)

omit [DecidableEq Name] in
theorem hdr_firstPacket {n : Name} :
    (firstPacket P key n).arrival.hdr = issuedHeader P key n 1 := by
  have hbytes : some (firstPacket P key n).rawHeader =
      RouterPipeline.serialize (issuedHeader P key n 1) (some (Vector.replicate 7 0)) := rfl
  simp only [Journey.arrival, hbytes]
  exact RouterPipeline.parse_serialize_some _ _

/-- A router lets the packet through exactly when it does not remember the name
with the SEQN 1 or one just after. -/
theorem Follows.passes_firstPacket_iff {n : Name} (h : Follows key A p c) :
    p.passes P (firstPacket P key n).arrival = true ↔
      ∀ last, SeqCache.latestSeqn c.maxTrackedEntries A n = some last →
        SeqCache.Fresh last 1 := by
  rw [h.passes_iff, hdr_firstPacket]
  exact and_iff_right (authentic_issuedHeader 1)

theorem mem_of_latestSeqn {K : ℕ} {n : Name} {last : UInt8}
    (h : SeqCache.latestSeqn K A n = some last) : n ∈ A.map Prod.fst := by
  rw [SeqCache.latestSeqn] at h
  split_ifs at h with hmem
  exact List.mem_eraseDups.mp (List.mem_of_mem_take hmem)

/-- New names pass everywhere and become the newest of every history. -/
theorem follows_newNames (hK : ∀ c ∈ params, 1 ≤ c.maxTrackedEntries) (ns : List Name)
    (h : List.Forall₂ (Follows key A) line params) (hns : ns.Nodup)
    (hnew : ∀ n ∈ ns, n ∉ A.map Prod.fst) :
    List.Forall₂ (Follows key ((ns.map fun n => (n, (1 : UInt8))).reverse ++ A))
      (Machine.final (step P) (line, rng) (ns.map (firstPacket P key))).1 params := by
  induction ns generalizing A line rng with
  | nil => exact h
  | cons n ns ih =>
      obtain ⟨hn, hns⟩ := List.nodup_cons.mp hns
      obtain ⟨hnA, hnew⟩ := List.forall_mem_cons.mp hnew
      have hpass : ∀ q ∈ line, q.passes P (firstPacket P key n).arrival = true := by
        intro q hq
        obtain ⟨d, -, hqd⟩ := exists_parameters h hq
        exact hqd.passes_firstPacket_iff.mpr fun last hlast =>
          absurd (mem_of_latestSeqn hlast) hnA
      have hstep : List.Forall₂ (Follows key ((n, _) :: A))
          (forward P line rng (firstPacket P key n)).2.1 params :=
        follows_forward hK h hpass
      rw [hdr_firstPacket] at hstep
      have hrest : ∀ m ∈ ns, m ∉ ((n, (1 : UInt8)) :: A).map Prod.fst := by
        intro m hm
        have hne : m ≠ n := fun heq => hn (heq ▸ hm)
        simpa [hne] using hnew m hm
      have hfinal := @ih _ (forward P line rng (firstPacket P key n)).2.2 _ hstep hns hrest
      rw [List.map_cons, List.reverse_cons, List.append_assoc]
      exact hfinal

omit [DecidableEq Name] in
theorem exists_nodup_cons [Infinite Name] (K : ℕ) :
    ∃ (n : Name) (ns : List Name), (n :: ns).Nodup ∧ ns.length = K := by
  obtain ⟨g⟩ : Nonempty (ℕ ↪ Name) := ⟨Infinite.natEmbedding Name⟩
  have hnodup := List.nodup_range.map g.injective (l := List.range (K + 1))
  rw [List.range_succ_eq_map, List.map_cons] at hnodup
  exact ⟨_, _, hnodup, by simp⟩

/-- The history after `K` more names than a router has room for. -/
theorem latestSeqn_oldest {K L : ℕ} {n : Name} {ns : List Name} (hns : (n :: ns).Nodup)
    (hlen : ns.length = K) :
    (SeqCache.latestSeqn L (((n :: ns).map fun m => (m, (1 : UInt8))).reverse ++ []) n) =
      if K < L then some 1 else none := by
  have hrev : ((n :: ns).map fun m => (m, (1 : UInt8))).reverse ++ [] =
      (ns.map fun m => (m, (1 : UInt8))).reverse ++ [(n, 1)] := by simp
  have hnames : ((ns.map fun m => (m, (1 : UInt8))).reverse ++ [(n, 1)]).map Prod.fst =
      ns.reverse ++ n :: [] := by
    simp [Function.comp_def]
  obtain ⟨hn, hns⟩ := List.nodup_cons.mp hns
  have hmem := Recency.mem_recent_iff (K := L) hnames (by simpa using hn)
  rw [Recency.length_eraseDups_of_nodup (List.nodup_reverse.mpr hns), List.length_reverse,
    hlen] at hmem
  have hlookup : ((ns.map fun m => (m, (1 : UInt8))).reverse ++ [(n, 1)]).lookup n =
      some 1 := by
    have hnone : (ns.map fun m => (m, (1 : UInt8))).reverse.lookup n = none := by
      rw [List.lookup_eq_none_iff]
      rintro ⟨m, r⟩ hmr
      obtain ⟨k, hk, heq⟩ := List.mem_map.mp (List.mem_reverse.mp hmr)
      obtain ⟨rfl, -⟩ := Prod.mk.inj heq
      simpa using fun heq : n = k => hn (heq ▸ hk)
    rw [List.lookup_append, hnone, Option.none_or, List.lookup_cons_self]
  rw [hrev, SeqCache.latestSeqn, SeqCache.recentNames, hlookup]
  exact if_congr hmem rfl rfl

/-- **The gateway suffices.** New routers of one key, each with room for some name,
stand in a line. Whatever passes the first of them arrives at the end, in every run and
for all packets and clocks, exactly when no router behind the first has room for more
names: a smaller gateway forgets a SEQN that a larger router remembers. -/
theorem gateway_suffices_iff [Infinite Name] (P : Primitives Name) (key : List UInt8)
    (first : Network.Parameters) (rest : List Network.Parameters)
    (hfirst : 1 ≤ first.maxTrackedEntries) (hrest : ∀ c ∈ rest, 1 ≤ c.maxTrackedEntries) :
    (∀ (rng : Rng) (xs : List (Journey Name)),
      ∀ e ∈ Machine.trace (step P) (routers key (first :: rest), rng) xs,
        EndToEnd (rest.length + 1) e.out) ↔
    ∀ c ∈ rest, c.maxTrackedEntries ≤ first.maxTrackedEntries := by
  constructor
  · intro hall d hd
    by_contra hlt
    -- as many new names as the first router has room for, after one more
    obtain ⟨n, ns, hns, hlen⟩ : ∃ (n : Name) (ns : List Name), (n :: ns).Nodup ∧
        ns.length = first.maxTrackedEntries := exists_nodup_cons _
    have hall := hall (Stream'.const 0) _ _ (Machine.mem_trace_concat _
      ((n :: ns).map (firstPacket P key)) (firstPacket P key n))
    have hfollows : List.Forall₂ (Follows key _)
        (Machine.final (step P) (routers key (first :: rest), Stream'.const 0)
          ((n :: ns).map (firstPacket P key))).1 (first :: rest) :=
      follows_newNames (List.forall_mem_cons.mpr ⟨hfirst, hrest⟩) (n :: ns)
        (follows_routers key _) hns (by simp)
    generalize Machine.final (step P) (routers key (first :: rest), Stream'.const 0)
      ((n :: ns).map (firstPacket P key)) = s at hfollows hall
    obtain ⟨line, rng⟩ := s
    obtain ⟨p, line, hp, hline, rfl⟩ := List.forall₂_cons_right_iff.mp hfollows
    have hpass : p.passes P (firstPacket P key n).arrival = true := by
      rw [hp.passes_firstPacket_iff, latestSeqn_oldest hns hlen]
      simp
    obtain ⟨q, hq, hqd⟩ := exists_router hline hd
    have hrepeat : q.passes P (firstPacket P key n).arrival = true := by
      rw [← hline.length_eq] at hall
      exact (endToEnd_iff p line).mp hall hpass q hq
    rw [hqd.passes_firstPacket_iff, latestSeqn_oldest hns hlen, if_pos (by omega)] at hrepeat
    exact Circular.newer_irrefl (hrepeat 1 rfl)
  · intro hle rng xs e he
    have hpre : InStep key (first :: rest) e.pre :=
      Machine.pre_of_mem_trace (I := InStep key (first :: rest))
        ⟨[], follows_routers key _⟩ (fun _ _ h => (InStep.step hfirst hrest hle h).1) he
    obtain ⟨pre, inp, out, post⟩ := e
    have hstep : step P pre inp = (out, post) := Machine.step_of_mem_trace he
    have hout := (InStep.step (P := P) (x := inp) hfirst hrest hle hpre).2
    rw [hstep] at hout
    exact hout

/-- A gateway with room for one name does not do for a router with room for two;
the other way round it does. -/
theorem gateway_suffices_sample :
    (¬ ∀ (rng : Rng) (xs : List (Journey (List UInt8))),
      ∀ e ∈ Machine.trace (step samplePrimitives)
        (routers sampleKey [⟨1, 1, 10, 1 / 2, 10⟩, ⟨2, 2, 10, 1 / 2, 10⟩], rng) xs,
        EndToEnd 2 e.out) ∧
    ∀ (rng : Rng) (xs : List (Journey (List UInt8))),
      ∀ e ∈ Machine.trace (step samplePrimitives)
        (routers sampleKey [⟨2, 2, 10, 1 / 2, 10⟩, ⟨1, 1, 10, 1 / 2, 10⟩], rng) xs,
        EndToEnd 2 e.out := by
  constructor
  · intro hall
    have hle := (gateway_suffices_iff samplePrimitives sampleKey ⟨1, 1, 10, 1 / 2, 10⟩
      [⟨2, 2, 10, 1 / 2, 10⟩] (by decide) (by decide)).mp hall
    exact absurd hle (by decide)
  · exact (gateway_suffices_iff samplePrimitives sampleKey ⟨2, 2, 10, 1 / 2, 10⟩
      [⟨1, 1, 10, 1 / 2, 10⟩] (by decide) (by decide)).mpr (by decide)

end RouterLine
end CaccSecure
