import CaccSecure.TamperingHooks

/-!
# Scenario S6: the hybrid hook

The hook of `attack-s6-hybrid` draws one of the five attacks for each packet. It
replays from a history of its own, in which it records the packets as it has sent
them, tampered with or not. None of the five attacks makes a new pair of SEQN and
tag, so the history holds only pairs that came in.
-/

namespace CaccSecure

/-- A call of the hook, and the draws that it may take, in their order. -/
structure HybridCall (ι Name : Type) extends HookCall ι Name where
  attackDraw : ℕ
  rhcDraw : ℕ
  recordDraw : ℚ

/-- The globals of the script, and the pipelines it drives. -/
structure HybridScript (ι Name : Type) [DecidableEq Name] extends
    TamperingScript ι Name where
  history : Finmap (fun _ : Name => List (UInt8 × UInt32))

/-- What is left of a deque after its front was popped. -/
theorem mem_of_mem_capped {α : Type*} {l : List α} {k : ℕ} {a : α}
    (h : a ∈ if l.length > k then l.tail else l) : a ∈ l := by
  split_ifs at h
  · exact List.mem_of_mem_tail h
  · exact h

namespace HybridScript

variable {ι Name : Type} [DecidableEq ι] [DecidableEq Name]

/-- The script before the first call. -/
def start (fleet : Fleet ι Name) : HybridScript ι Name := ⟨.start fleet, ∅⟩

/-- `g_history[contentName]`. -/
def pairs (s : HybridScript ι Name) (contentName : Name) : List (UInt8 × UInt32) :=
  (s.history.lookup contentName).getD []

/-- The attack that the call draws, from 1 to 5. -/
def attackType (x : HybridCall ι Name) : ℕ := 1 + x.attackDraw % 5

/-- The header after the attack. -/
def attack (s : HybridScript ι Name) (x : HybridCall ι Name) : CaccHeader :=
  let hdr := x.arrival.hdr
  match attackType x with
  | 1 => { hdr with ph := hdr.ph + 50 }
  | 2 => { hdr with rhc := UInt8.ofNat (1 + x.rhcDraw % 40) }
  | 3 =>
      match s.pairs x.arrival.contentName with
      | [] => hdr
      | old :: _ => { hdr with seqn := old.1, hmac := old.2 }
  | 4 => { hdr with ph := hdr.ph + 1 }
  | 5 => { hdr with ph := hdr.ph + 10 }
  | _ => hdr

def tamperedCall (s : HybridScript ι Name) (x : HybridCall ι Name) :
    TamperedCall ι Name :=
  ⟨x.toHookCall, s.attack x⟩

/-- `g_history[contentName]` after the packet was sent with the header `hdr`. -/
def recorded (s : HybridScript ι Name) (x : HybridCall ι Name) (hdr : CaccHeader) :
    List (UInt8 × UInt32) :=
  let hist := s.pairs x.arrival.contentName ++ [(hdr.seqn, hdr.hmac)]
  if hist.length > 256 then hist.tail else hist

/-- A packet counts as in S5; about every second one is recorded. -/
def hybridHook (P : Primitives Name) (s : HybridScript ι Name) (x : HybridCall ι Name) :
    (Outcome × CaccHeader) × HybridScript ι Name :=
  let (r, script) := TamperingScript.tamperingHook P
    TamperingScript.byzantineAttribution s.toTamperingScript (s.tamperedCall x)
  let history :=
    if x.recordDraw > 1 / 2 then
      s.history.insert x.arrival.contentName (s.recorded x r.2)
    else s.history
  (r, ⟨script, history⟩)

variable {P : Primitives Name} {s : HybridScript ι Name} {x : HybridCall ι Name}
  {n : Name}

/-! ## One call -/

omit [DecidableEq ι] [DecidableEq Name] in
theorem attackType_mem (x : HybridCall ι Name) :
    attackType x = 1 ∨ attackType x = 2 ∨ attackType x = 3 ∨ attackType x = 4 ∨
      attackType x = 5 := by
  have hlt := Nat.mod_lt x.attackDraw (show 0 < 5 by decide)
  rw [attackType]
  omega

omit [DecidableEq ι] in
/-- No attack makes a pair of SEQN and tag of its own. -/
theorem pair_attack (s : HybridScript ι Name) (x : HybridCall ι Name) :
    ((s.attack x).seqn, (s.attack x).hmac) = (x.arrival.hdr.seqn, x.arrival.hdr.hmac) ∨
      ((s.attack x).seqn, (s.attack x).hmac) ∈ s.pairs x.arrival.contentName := by
  rcases attackType_mem x with h | h | h | h | h
  · left
    simp only [attack, h]
  · left
    simp only [attack, h]
  · cases hp : s.pairs x.arrival.contentName with
    | nil =>
        left
        simp only [attack, h, hp]
    | cons old hist =>
        right
        simp only [attack, h, hp]
        exact List.mem_cons_self
  · left
    simp only [attack, h]
  · left
    simp only [attack, h]

theorem pairs_hybridHook : (hybridHook P s x).2.pairs n =
    if n = x.arrival.contentName ∧ x.recordDraw > 1 / 2 then s.recorded x (s.attack x)
    else s.pairs n := by
  have hdr : (hybridHook P s x).1.2 = s.attack x := rfl
  by_cases hdraw : x.recordDraw > 1 / 2
  · by_cases hn : n = x.arrival.contentName
    · subst hn
      rw [if_pos ⟨rfl, hdraw⟩]
      simp only [hybridHook, if_pos hdraw, pairs, Finmap.lookup_insert, Option.getD_some]
      rfl
    · rw [if_neg fun h => hn h.1]
      simp only [hybridHook, if_pos hdraw, pairs, Finmap.lookup_insert_of_ne _ hn]
  · rw [if_neg fun h => hdraw h.2]
    simp only [hybridHook, if_neg hdraw, pairs]

omit [DecidableEq ι] in
theorem length_recorded_le {hdr : CaccHeader}
    (h : (s.pairs x.arrival.contentName).length ≤ 256) :
    (s.recorded x hdr).length ≤ 256 := by
  rw [recorded]
  split_ifs with hfull
  · rw [List.length_tail, List.length_append, List.length_singleton]
    omega
  · exact Nat.not_lt.mp hfull

omit [DecidableEq ι] in
theorem mem_of_mem_recorded {hdr : CaccHeader} {p : UInt8 × UInt32}
    (h : p ∈ s.recorded x hdr) :
    p ∈ s.pairs x.arrival.contentName ∨ p = (hdr.seqn, hdr.hmac) := by
  simpa using mem_of_mem_capped h

/-! ## Runs -/

/-- The pairs of SEQN and tag that have come in for a name. -/
def cameIn (xs : List (HybridCall ι Name)) (n : Name) : List (UInt8 × UInt32) :=
  (xs.filter (·.arrival.contentName = n)).map fun x =>
    (x.arrival.hdr.seqn, x.arrival.hdr.hmac)

/-- The history holds nothing else, and at most 256 pairs for a name. -/
def Records (s : HybridScript ι Name) (xs : List (HybridCall ι Name)) : Prop :=
  ∀ n, (s.pairs n).length ≤ 256 ∧ ∀ p ∈ s.pairs n, p ∈ cameIn xs n

omit [DecidableEq ι] in
theorem cameIn_concat (xs : List (HybridCall ι Name)) (x : HybridCall ι Name) (n : Name) :
    cameIn (xs ++ [x]) n = cameIn xs n ++
      if x.arrival.contentName = n then [(x.arrival.hdr.seqn, x.arrival.hdr.hmac)]
      else [] := by
  rw [cameIn, cameIn, List.filter_append, List.map_append]
  by_cases hn : x.arrival.contentName = n <;> simp [hn]

omit [DecidableEq ι] in
/-- What the hook sends has come in. -/
theorem Records.sent {xs : List (HybridCall ι Name)} (h : Records s xs)
    (x : HybridCall ι Name) :
    ((s.attack x).seqn, (s.attack x).hmac) ∈ cameIn (xs ++ [x]) x.arrival.contentName := by
  rw [cameIn_concat, if_pos rfl, List.mem_append]
  rcases pair_attack s x with heq | hmem
  · right
    rw [heq]
    exact List.mem_singleton_self _
  · exact Or.inl ((h _).2 _ hmem)

theorem Records.step {xs : List (HybridCall ι Name)} (h : Records s xs)
    (x : HybridCall ι Name) : Records (hybridHook P s x).2 (xs ++ [x]) := by
  have hold : ∀ n, ∀ p ∈ s.pairs n, p ∈ cameIn (xs ++ [x]) n := by
    intro n p hp
    rw [cameIn_concat]
    exact List.mem_append_left _ ((h n).2 p hp)
  intro n
  rw [pairs_hybridHook]
  split_ifs with hn
  · obtain ⟨rfl, -⟩ := hn
    refine ⟨length_recorded_le (h _).1, fun p hp => ?_⟩
    rcases mem_of_mem_recorded hp with hp | rfl
    · exact hold _ p hp
    · exact h.sent x
  · exact ⟨(h n).1, hold n⟩

theorem records_final (P : Primitives Name) (fleet : Fleet ι Name)
    (xs : List (HybridCall ι Name)) :
    Records (Machine.final (hybridHook P) (start fleet) xs) xs := by
  induction xs using List.reverseRecOn with
  | nil => exact fun n => by simp [start, pairs]
  | append_singleton xs x ih =>
      rw [Machine.final_concat]
      exact ih.step x

/-- Every call counts once. -/
theorem counters_final (P : Primitives Name) (fleet : Fleet ι Name)
    (xs : List (HybridCall ι Name)) :
    let s := Machine.final (hybridHook P) (start fleet) xs
    s.packetsTotal = .ofNat xs.length ∧ s.packetsTampered = .ofNat xs.length ∧
      s.packetsDetected + s.packetsFalsePos = .ofNat xs.length := by
  induction xs using List.reverseRecOn with
  | nil => exact ⟨rfl, rfl, rfl⟩
  | append_singleton xs x ih =>
      obtain ⟨htotal, hattacked, hcounted⟩ := ih
      have hone : UInt64.ofNat (xs ++ [x]).length = .ofNat xs.length + 1 := by
        rw [List.length_append, UInt64.ofNat_add]
        rfl
      rw [Machine.final_concat, hone]
      refine ⟨?_, ?_, ?_⟩
      · exact TamperingScript.counters_tamperingHook.1.trans (congrArg (· + 1) htotal)
      · exact TamperingScript.counters_tamperingHook.2.1.trans (congrArg (· + 1) hattacked)
      · rw [← hcounted]
        exact TamperingScript.counted_tamperingHook
          (TamperingScript.byzantineAttribution_ne _ _ _)

/-- **What S6 sends has come in.** After every run of the hybrid hook, the history of
a name holds at most 256 pairs, each of them the SEQN and the tag of a packet that came
in for that very name, and so does whatever header the next call sends. All calls count,
each as detected or as a false positive. -/
theorem hybrid_sends_what_came_in (P : Primitives Name) (fleet : Fleet ι Name)
    (xs : List (HybridCall ι Name)) :
    let s := Machine.final (hybridHook P) (start fleet) xs
    (∀ n, (s.pairs n).length ≤ 256 ∧ ∀ p ∈ s.pairs n, p ∈ cameIn xs n) ∧
    (∀ x, ((hybridHook P s x).1.2.seqn, (hybridHook P s x).1.2.hmac) ∈
      cameIn (xs ++ [x]) x.arrival.contentName) ∧
    s.packetsTotal = .ofNat xs.length ∧ s.packetsTampered = .ofNat xs.length ∧
    s.packetsDetected + s.packetsFalsePos = .ofNat xs.length := by
  intro s
  have hrecords : Records s xs := records_final P fleet xs
  exact ⟨hrecords, hrecords.sent, counters_final P fleet xs⟩

end HybridScript
end CaccSecure
