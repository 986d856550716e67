import CaccSecure.Fleet
import CaccSecure.Lib.Guessing

/-!
# Guessing tags

The adversaries of the other modules present a matching tag only for a message that
a party with the key has authenticated. This is what a tag of 32 bits gives: of an
adversary that sees all of the routers but the tags, each guess of a tag is right for
one in `2 ^ 32` ways to draw it, however it uses the packets that were dropped.
-/

namespace CaccSecure
namespace TagGuessing

variable {Name : Type}

/-- The primitives, with the tags of the messages of `M` under the key redrawn. -/
def redrawn (P : Primitives Name) (key : List UInt8) (M : Finset (List UInt8))
    (tags : M → UInt32) : Primitives Name where
  toUri := P.toUri
  hmac k message :=
    if h : k = key ∧ message ∈ M then some (Bytes.bytes32 (tags ⟨message, h.2⟩))
    else P.hmac k message

/-- The message that is authenticated by the tag of a packet. -/
def message (P : Primitives Name) (a : Arrival Name) : List UInt8 :=
  SecurityEngine.buffer P a.contentName a.hdr.ph a.hdr.rhc a.hdr.seqn

variable {P : Primitives Name} {key : List UInt8} {M : Finset (List UInt8)}
  {tags : M → UInt32} {a : Arrival Name}

theorem truncate_bytes32 (w : UInt32) : SecurityEngine.truncate (some (Bytes.bytes32 w)) = w :=
  Bytes.be32_eq_iff.mpr rfl

theorem computeHmac_redrawn (k : List UInt8) :
    SecurityEngine.computeHmac (redrawn P key M tags) ⟨k⟩ a.contentName a.hdr.ph a.hdr.rhc
        a.hdr.seqn =
      if h : k = key ∧ message P a ∈ M then tags ⟨message P a, h.2⟩
      else SecurityEngine.computeHmac P ⟨k⟩ a.contentName a.hdr.ph a.hdr.rhc a.hdr.seqn := by
  have hbuffer : SecurityEngine.buffer (redrawn P key M tags) a.contentName a.hdr.ph a.hdr.rhc
      a.hdr.seqn = message P a := rfl
  rw [SecurityEngine.computeHmac, hbuffer]
  by_cases h : k = key ∧ message P a ∈ M
  · rw [dif_pos h]
    simp only [redrawn, dif_pos h, truncate_bytes32]
  · rw [dif_neg h]
    simp only [redrawn, dif_neg h]
    rfl

variable {ι : Type} [DecidableEq ι] [DecidableEq Name]

/-- The routers, and what has become of the packets so far, newest first. -/
structure Play (ι Name : Type) [DecidableEq Name] where
  fleet : Fleet ι Name
  outcomes : List Outcome

/-- The adversary sees all of it, and sends the next packet. Parties with the key that
authenticate no message of `M` are part of the strategy. -/
def play (P : Primitives Name) (strategy : Play ι Name → HookCall ι Name) (s : Play ι Name) :
    Unit → Outcome × Play ι Name := fun _ =>
  let r := s.fleet.process P (strategy s).pipeline (strategy s).arrival
  (r.1, ⟨r.2, r.1 :: s.outcomes⟩)

/-- The tag that is guessed. -/
def guess (P : Primitives Name) (M : Finset (List UInt8))
    (strategy : Play ι Name → HookCall ι Name) (s : Play ι Name) : Option (M × UInt32) :=
  if h : message P (strategy s).arrival ∈ M then
    some (⟨message P (strategy s).arrival, h⟩, (strategy s).arrival.hdr.hmac)
  else none

/-- The next state, if the tags are these. -/
def next (P : Primitives Name) (key : List UInt8) (M : Finset (List UInt8))
    (strategy : Play ι Name → HookCall ι Name) (tags : M → UInt32) (s : Play ι Name) :
    Play ι Name :=
  (play (redrawn P key M tags) strategy s ()).2

/-- The check of the tag of the next packet. -/
def verifies (P : Primitives Name) (strategy : Play ι Name → HookCall ι Name)
    (s : Play ι Name) : Bool :=
  (s.fleet.pipelines (strategy s).pipeline).verifyHmac P (strategy s).arrival.contentName
    (strategy s).arrival.hdr

variable {strategy : Play ι Name → HookCall ι Name} {s : Play ι Name}

/-- The primitives matter to a packet only through the check of its tag. -/
theorem process_congr {P P' : Primitives Name} {s : RouterPipeline Name × Rng}
    (h : s.1.verifyHmac P a.contentName a.hdr = s.1.verifyHmac P' a.contentName a.hdr) :
    RouterPipeline.process P s a = RouterPipeline.process P' s a := by
  rcases RouterPipeline.checks_cases P s.1 a with hc | ⟨hc, hs⟩ | ⟨hc, hs⟩
  · have hc' := h.symm.trans hc
    rw [RouterPipeline.process_tampered hc, RouterPipeline.process_tampered hc']
  · have hc' := h.symm.trans hc
    rw [RouterPipeline.process_replayed hc hs, RouterPipeline.process_replayed hc' hs]
  · have hc' := h.symm.trans hc
    rw [RouterPipeline.process_passed hc hs, RouterPipeline.process_passed hc' hs]

theorem play_congr {P P' : Primitives Name}
    (h : verifies P strategy s = verifies P' strategy s) :
    play P strategy s = play P' strategy s := by
  have hprocess := process_congr (s := (s.fleet.pipelines (strategy s).pipeline, s.fleet.rng)) h
  unfold play Fleet.process
  rw [hprocess]

omit [DecidableEq ι] in
theorem guess_of_mem (hmem : message P (strategy s).arrival ∈ M) : guess P M strategy s =
    some (⟨message P (strategy s).arrival, hmem⟩, (strategy s).arrival.hdr.hmac) :=
  dif_pos hmem

omit [DecidableEq ι] in
/-- A guess is right exactly if the packet gets through the check of its tag. -/
theorem hits_iff (hkey : (s.fleet.pipelines (strategy s).pipeline).security = ⟨key⟩) :
    Guessing.Hits (guess P M strategy) tags s ↔
      message P (strategy s).arrival ∈ M ∧ verifies (redrawn P key M tags) strategy s = true := by
  by_cases hmem : message P (strategy s).arrival ∈ M
  · rw [Guessing.hits_iff (guess_of_mem hmem), verifies, RouterPipeline.verifyHmac_eq_true_iff,
      hkey, computeHmac_redrawn, dif_pos ⟨rfl, hmem⟩, and_iff_right hmem]
    exact eq_comm
  · have hnone : guess P M strategy s = none := dif_neg hmem
    exact iff_of_false (Guessing.not_hits_of_none hnone) fun h => hmem h.1

/-- A wrong guess is dropped, whatever the tags are. -/
theorem blind_next : Guessing.Blind (next P key M strategy) (guess P M strategy) := by
  intro tags tags' s hmiss hmiss'
  have hverify : verifies (redrawn P key M tags) strategy s =
      verifies (redrawn P key M tags') strategy s := by
    rw [Bool.eq_iff_iff]
    by_cases hguess : (s.fleet.pipelines (strategy s).pipeline).security.key = key ∧
        message P (strategy s).arrival ∈ M
    · obtain ⟨hkey, hmem⟩ := hguess
      have hsecurity : (s.fleet.pipelines (strategy s).pipeline).security = ⟨key⟩ := by
        rw [← hkey]
      rw [hits_iff hsecurity] at hmiss hmiss'
      exact iff_of_false (fun h => hmiss ⟨hmem, h⟩) fun h => hmiss' ⟨hmem, h⟩
    · have hcompute : ∀ tags : M → UInt32,
          (s.fleet.pipelines (strategy s).pipeline).security.computeHmac (redrawn P key M tags)
              (strategy s).arrival.contentName (strategy s).arrival.hdr.ph
              (strategy s).arrival.hdr.rhc (strategy s).arrival.hdr.seqn =
            (s.fleet.pipelines (strategy s).pipeline).security.computeHmac P
              (strategy s).arrival.contentName (strategy s).arrival.hdr.ph
              (strategy s).arrival.hdr.rhc (strategy s).arrival.hdr.seqn :=
        fun tags => (computeHmac_redrawn _).trans (dif_neg hguess)
      rw [verifies, verifies, RouterPipeline.verifyHmac_eq_true_iff,
        RouterPipeline.verifyHmac_eq_true_iff, hcompute, hcompute]
  rw [next, next, play_congr hverify]

/-! ## Runs -/

/-- A packet for a message of `M` that is not dropped as tampered with. -/
def Forged (P : Primitives Name) (M : Finset (List UInt8))
    (strategy : Play ι Name → HookCall ι Name)
    (e : Machine.Event (Play ι Name) Unit Outcome) : Prop :=
  message P (strategy e.pre).arrival ∈ M ∧ e.out.decision ≠ .dropTampering

theorem forged_iff (hkey : (s.fleet.pipelines (strategy s).pipeline).security = ⟨key⟩)
    {post : Play ι Name} :
    Forged P M strategy ⟨s, (), (play (redrawn P key M tags) strategy s ()).1, post⟩ ↔
      Guessing.Hits (guess P M strategy) tags s := by
  rw [hits_iff hkey, Forged]
  apply and_congr_right
  intro _
  show (RouterPipeline.process (redrawn P key M tags)
    (s.fleet.pipelines (strategy s).pipeline, s.fleet.rng)
    (strategy s).arrival).1.decision ≠ _ ↔ _
  rw [RouterPipeline.decision_process]
  unfold verifies
  cases (s.fleet.pipelines (strategy s).pipeline).verifyHmac (redrawn P key M tags)
      (strategy s).arrival.contentName (strategy s).arrival.hdr with
  | false => simp
  | true =>
      simp only [Bool.true_eq_false, if_false, iff_true]
      split_ifs <;> simp

theorem security_next (hkey : ∀ i, (s.fleet.pipelines i).security = ⟨key⟩) (i : ι) :
    ((next P key M strategy tags s).fleet.pipelines i).security = ⟨key⟩ :=
  Fleet.security_process.trans (hkey i)

theorem wins_iff (hkey : ∀ i, (s.fleet.pipelines i).security = ⟨key⟩) (k : ℕ) :
    Guessing.Wins (next P key M strategy) (guess P M strategy) tags k s ↔
      ∃ e ∈ Machine.trace (play (redrawn P key M tags) strategy) s (List.replicate k ()),
        Forged P M strategy e := by
  induction k generalizing s with
  | zero => simp [Guessing.Wins]
  | succ k ih =>
      rw [Guessing.Wins, ih (security_next hkey), List.replicate_succ, Machine.trace,
        List.exists_mem_cons_iff, forged_iff (hkey _)]
      rfl

theorem guesses_eq (k : ℕ) :
    Guessing.guesses (next P key M strategy) (guess P M strategy) tags k s =
      (Machine.trace (play (redrawn P key M tags) strategy) s (List.replicate k ())).countP
        fun e => message P (strategy e.pre).arrival ∈ M := by
  induction k generalizing s with
  | zero => rfl
  | succ k ih =>
      rw [Guessing.guesses, ih, List.replicate_succ, Machine.trace, List.countP_cons,
        Nat.add_comm]
      by_cases hmem : message P (strategy s).arrival ∈ M
      · rw [guess_of_mem hmem]
        simp [hmem]
        rfl
      · have hnone : guess P M strategy s = none := dif_neg hmem
        rw [hnone]
        simp [hmem]
        rfl

/-- The words are the numbers below `2 ^ 32`. -/
def wordEquiv : UInt32 ≃ Fin (2 ^ 32) where
  toFun w := ⟨w.toNat, w.toNat_lt⟩
  invFun i := UInt32.ofNat i
  left_inv _ := UInt32.ofNat_toNat
  right_inv i := Fin.ext (UInt32.toNat_ofNat_of_lt' i.isLt)

instance finite_word : Finite UInt32 := Finite.of_equiv _ wordEquiv.symm

theorem card_word : Nat.card UInt32 = 2 ^ 32 := by
  rw [Nat.card_congr wordEquiv, Nat.card_fin]

/-! ## Trying one tag after the other -/

/-- The packet, with tags that count up from 0. -/
def tryAll (x : HookCall ι Name) (s : Play ι Name) : HookCall ι Name :=
  { x with arrival := { x.arrival with
      hdr := { x.arrival.hdr with hmac := UInt32.ofNat s.outcomes.length } } }

theorem wins_tryAll_iff {x : HookCall ι Name} (hmem : message P x.arrival ∈ M) (k : ℕ) :
    Guessing.Wins (next P key M (tryAll x)) (guess P M (tryAll x)) tags k s ↔
      ∃ j, s.outcomes.length ≤ j ∧ j < s.outcomes.length + k ∧
        tags ⟨message P x.arrival, hmem⟩ = UInt32.ofNat j := by
  induction k generalizing s with
  | zero =>
      simp only [Guessing.Wins, false_iff]
      rintro ⟨j, hle, hlt, -⟩
      omega
  | succ k ih =>
      have hguess : guess P M (tryAll x) s =
          some (⟨message P x.arrival, hmem⟩, UInt32.ofNat s.outcomes.length) := dif_pos hmem
      have hlength : (next P key M (tryAll x) tags s).outcomes.length =
          s.outcomes.length + 1 := rfl
      rw [Guessing.Wins, Guessing.hits_iff hguess, ih, hlength]
      constructor
      · rintro (hnow | ⟨j, hle, hlt, hlater⟩)
        · exact ⟨_, Nat.le_refl _, by omega, hnow⟩
        · exact ⟨j, by omega, by omega, hlater⟩
      · rintro ⟨j, hle, hlt, hright⟩
        rcases Nat.eq_or_lt_of_le hle with rfl | hlt'
        · exact Or.inl hright
        · exact Or.inr ⟨j, hlt', by omega, hright⟩

omit [DecidableEq ι] [DecidableEq Name] in
theorem ncard_below (m : M) {q : ℕ} (hq : q ≤ 2 ^ 32) :
    {tags : M → UInt32 | ∃ j, j < q ∧ tags m = UInt32.ofNat j}.ncard * 2 ^ 32 =
      q * Nat.card (M → UInt32) := by
  have hset : {tags : M → UInt32 | ∃ j, j < q ∧ tags m = UInt32.ofNat j} =
      {tags | tags m ∈ (Finset.range q).image UInt32.ofNat} := by
    ext tags
    simp [eq_comm]
  have hinj : Set.InjOn UInt32.ofNat (Finset.range q) := by
    intro i hi j hj heq
    have hi' := Finset.mem_range.mp (Finset.mem_coe.mp hi)
    have hj' := Finset.mem_range.mp (Finset.mem_coe.mp hj)
    have htoNat := congrArg UInt32.toNat heq
    rwa [UInt32.toNat_ofNat_of_lt' (hi'.trans_le hq),
      UInt32.toNat_ofNat_of_lt' (hj'.trans_le hq)] at htoNat
  rw [hset, ← card_word, Guessing.ncard_mem_at, Finset.card_image_of_injOn hinj,
    Finset.card_range]

/-- **Guessing tags.** An adversary that sees all of some routers with the key but the
tags of the messages of `M`, and sends them whatever packets it likes, at most `q` for
these messages: among the `2 ^ 32` tags for each message of `M`, all equally likely, at
most `q` in `2 ^ 32` let any of those packets through the check of its tag. Trying `q`
tags for one message is as good as anything. -/
theorem forgery_bound (P : Primitives Name) (key : List UInt8) (M : Finset (List UInt8))
    (fleet : Fleet ι Name) (hkey : ∀ i, (fleet.pipelines i).security = ⟨key⟩) (q : ℕ) :
    (∀ (strategy : Play ι Name → HookCall ι Name) (k : ℕ),
      (∀ tags : M → UInt32,
        (Machine.trace (play (redrawn P key M tags) strategy) ⟨fleet, []⟩
          (List.replicate k ())).countP
            (fun e => message P (strategy e.pre).arrival ∈ M) ≤ q) →
      {tags : M → UInt32 | ∃ e ∈ Machine.trace (play (redrawn P key M tags) strategy)
          ⟨fleet, []⟩ (List.replicate k ()), Forged P M strategy e}.ncard * 2 ^ 32 ≤
        q * Nat.card (M → UInt32)) ∧
    (∀ x : HookCall ι Name, message P x.arrival ∈ M → q ≤ 2 ^ 32 →
      {tags : M → UInt32 | ∃ e ∈ Machine.trace (play (redrawn P key M tags) (tryAll x))
          ⟨fleet, []⟩ (List.replicate q ()), Forged P M (tryAll x) e}.ncard * 2 ^ 32 =
        q * Nat.card (M → UInt32)) := by
  have hwins : ∀ (strategy : Play ι Name → HookCall ι Name) (k : ℕ) (tags : M → UInt32),
      (∃ e ∈ Machine.trace (play (redrawn P key M tags) strategy) ⟨fleet, []⟩
          (List.replicate k ()), Forged P M strategy e) ↔
        Guessing.Wins (next P key M strategy) (guess P M strategy) tags k ⟨fleet, []⟩ :=
    fun strategy k tags => (wins_iff (s := ⟨fleet, []⟩) hkey k).symm
  constructor
  · intro strategy k hq
    have hblind : Guessing.Blind (next P key M strategy) (guess P M strategy) := blind_next
    have hbound := Guessing.ncard_wins_le hblind Set.univ k q ⟨fleet, []⟩
      fun tags _ => (guesses_eq k).trans_le (hq tags)
    rw [card_word] at hbound
    simpa only [hwins, Set.mem_univ, true_and] using hbound
  · intro x hmem hq
    have hexact := ncard_below ⟨message P x.arrival, hmem⟩ hq
    simpa only [hwins, wins_tryAll_iff hmem, List.length_nil, Nat.zero_le, Nat.zero_add,
      true_and] using hexact

/-- The tag 0 first, then the tag 100, and 200 if the first was dropped. -/
def sampleStrategy (x : HookCall Unit (List UInt8)) (s : Play Unit (List UInt8)) :
    HookCall Unit (List UInt8) :=
  let hmac : UInt32 :=
    match s.outcomes with
    | [] => 0
    | [_] => 100
    | _ :: o :: _ => if o.forwards then 0 else 200
  { x with arrival := { x.arrival with hdr := { x.arrival.hdr with hmac := hmac } } }

/-- Three packets for one of two messages. -/
theorem forgery_bound_sample :
    let x : HookCall Unit (List UInt8) := ⟨(), sampleArrival (sampleHeader 0 0 7)⟩
    let M := {message samplePrimitives x.arrival,
      message samplePrimitives (sampleArrival (sampleHeader 0 0 8))}
    let forging (strategy : Play Unit (List UInt8) → HookCall Unit (List UInt8)) :=
      {tags : { m // m ∈ M } → UInt32 | ∃ e ∈ Machine.trace
        (play (redrawn samplePrimitives sampleKey M tags) strategy) ⟨sampleFleet, []⟩
        (List.replicate 3 ()), Forged samplePrimitives M strategy e}
    (forging (sampleStrategy x)).ncard * 2 ^ 32 ≤
        3 * Nat.card ({ m // m ∈ M } → UInt32) ∧
      (forging (tryAll x)).ncard * 2 ^ 32 = 3 * Nat.card ({ m // m ∈ M } → UInt32) := by
  intro x M forging
  obtain ⟨hbound, hexact⟩ :=
    forgery_bound samplePrimitives sampleKey M sampleFleet (fun _ => rfl) 3
  exact ⟨hbound (sampleStrategy x) 3 fun _ => List.countP_le_length,
    hexact x (Finset.mem_insert_self _ _) (by decide)⟩

end TagGuessing
end CaccSecure
