import CaccSecure.RouterPipeline

/-!
# What a router keeps

The SEQN cache is bounded by its capacity. The rate limiter and the reputation
table never drop an entry: the former keeps a window for every name of which a
packet has passed, the latter a score for every hop from which a packet has come,
a forged one included.
-/

namespace CaccSecure
namespace RouterPipeline

variable {Name : Type} [DecidableEq Name]

/-- What is kept after packets of the names `A` have passed and packets have come
from the hops `B`. -/
structure Keeps (K : ℕ) (limit : UInt32) (p : RouterPipeline Name) (A : List Name)
    (B : List UInt32) : Prop where
  capacity : p.seqCache.maxTrackedEntries = K
  names : Recency.Fills K A.toFinset p.seqCache.names
  limit : p.rateLimiter.maxIncrPerWindow = limit
  windows : p.rateLimiter.windows.keys = A.toFinset
  stamps : ∀ n, (p.rateLimiter.window n).timestamps.length ≤ A.count n
  scores : p.reputation.scores.keys = B.toFinset

variable {P : Primitives Name} {K : ℕ} {limit : UInt32} {p : RouterPipeline Name}
  {s : RouterPipeline Name × Rng} {A : List Name} {B : List UInt32} {a : Arrival Name}

theorem keys_insert {α β : Type} [DecidableEq α] (f : Finmap fun _ : α => β) (x : α)
    (y : β) : (f.insert x y).keys = insert x f.keys := by
  ext z
  rw [Finmap.mem_keys, Finmap.mem_insert, Finset.mem_insert, Finmap.mem_keys]

theorem keys_update {t : ReputationTable} {hop : UInt32} {consistent : Bool} :
    (t.update hop consistent).scores.keys = insert hop t.scores.keys := by
  unfold ReputationTable.update
  simp only [keys_insert]
  split_ifs with hmem
  · rfl
  · rw [keys_insert, Finset.insert_idem]

theorem length_checkWindow_le_succ {windowMs now : UInt64} {w : Window} {ph : UInt8} :
    (RateLimiter.checkWindow limit windowMs now w ph).2.timestamps.length ≤
      w.timestamps.length + 1 := by
  have hpurge := RateLimiter.length_purge_le windowMs now w.timestamps
  unfold RateLimiter.checkWindow
  simp only
  split_ifs
  · exact Nat.le_succ_of_le hpurge
  · rw [List.length_append]
    exact Nat.succ_le_succ hpurge

/-- **Step, a packet that passes.** -/
theorem Keeps.passed (h : Keeps K limit s.1 A B) (hpass : s.1.passes P a = true) :
    Keeps K limit (process P s a).2.1 (a.contentName :: A) (a.prevHopId :: B) := by
  have hacc := (passes_eq_true_iff.mp hpass).2
  have hlimiter : (process P s a).2.1.rateLimiter =
      (s.1.rateLimiter.checkAndUpdate a.clock a.contentName a.hdr.ph).2 := by
    rw [rateLimiter_process, if_pos hpass]
  refine ⟨?_, ?_, ?_, ?_, ?_, ?_⟩
  · rw [seqCache_of_passes hpass]
    simpa using h.capacity
  · rw [seqCache_of_passes hpass, SeqCache.names_of_accepted hacc, h.capacity,
      List.toFinset_cons]
    exact h.names.touch
  · rw [hlimiter]
    exact h.limit
  · rw [hlimiter, List.toFinset_cons, ← h.windows]
    exact keys_insert _ _ _
  · intro n
    rw [hlimiter]
    by_cases hn : n = a.contentName
    · subst hn
      rw [RateLimiter.window_checkAndUpdate_self, List.count_cons_self]
      exact length_checkWindow_le_succ.trans (Nat.succ_le_succ (h.stamps a.contentName))
    · rw [RateLimiter.window_checkAndUpdate_of_ne hn, List.count_cons_of_ne (Ne.symm hn)]
      exact h.stamps n
  · rw [reputation_process, keys_update, h.scores, List.toFinset_cons]

/-- **Step, a packet that is dropped.** It leaves nothing but a score for its hop. -/
theorem Keeps.dropped (h : Keeps K limit s.1 A B) (hpass : s.1.passes P a = false) :
    Keeps K limit (process P s a).2.1 A (a.prevHopId :: B) := by
  have hlimiter : (process P s a).2.1.rateLimiter = s.1.rateLimiter := by
    rw [rateLimiter_process, hpass, if_neg Bool.false_ne_true]
  refine ⟨?_, ?_, ?_, ?_, ?_, ?_⟩
  · rw [seqCache_of_not_passes hpass, h.capacity]
  · rw [seqCache_of_not_passes hpass]
    exact h.names
  · rw [hlimiter, h.limit]
  · rw [hlimiter, h.windows]
  · rw [hlimiter]
    exact h.stamps
  · rw [reputation_process, keys_update, h.scores, List.toFinset_cons]

/-- The names of the packets that passed in a run. -/
def passedNames (E : List (Machine.Event (RouterPipeline Name × Rng) (Arrival Name) Outcome)) :
    List Name :=
  (E.filter fun e => e.out.forwards).map fun e => e.inp.contentName

/-- **Run.** -/
theorem Keeps.run (h : Keeps K limit s.1 A B) (xs : List (Arrival Name)) :
    Keeps K limit (Machine.final (process P) s xs).1
      ((passedNames (Machine.trace (process P) s xs)).reverse ++ A)
      ((xs.map Arrival.prevHopId).reverse ++ B) := by
  induction xs generalizing s A B with
  | nil => exact h
  | cons a xs ih =>
      rw [Machine.trace, Machine.final, passedNames, List.filter_cons]
      simp only [forwards_process, List.map_cons, List.reverse_cons, List.append_assoc]
      cases hpass : s.1.passes P a with
      | true =>
          rw [if_pos rfl, List.map_cons, List.reverse_cons, List.append_assoc]
          exact ih (h.passed hpass)
      | false =>
          rw [if_neg Bool.false_ne_true]
          exact ih (h.dropped hpass)

theorem keeps_new (nodeId : UInt32) (hmacKey : List UInt8) (alpha : ℚ) (maxHops : UInt8) :
    Keeps K limit (.new nodeId hmacKey K limit alpha maxHops : RouterPipeline Name) [] []
    where
  capacity := rfl
  names := Recency.fills_nil
  limit := rfl
  windows := rfl
  stamps _ := Nat.le_refl 0
  scores := rfl

/-- **What a router keeps.** After every run of a new router, with `D` names of which
a packet has passed, the SEQN cache tracks `D` names or as many as it has room for,
the rate limiter holds a window for each of the `D` names, with at most as many
stamps as the limit allows and as packets of the name have passed, and the
reputation table holds a score for every hop from which any packet has come. -/
theorem footprint (P : Primitives Name) (nodeId : UInt32) (hmacKey : List UInt8)
    (K : ℕ) (limit : UInt32) (alpha : ℚ) (maxHops : UInt8) (rng : Rng)
    (xs : List (Arrival Name)) :
    let router : RouterPipeline Name := .new nodeId hmacKey K limit alpha maxHops
    let post := (Machine.final (process P) (router, rng) xs).1
    let passed := passedNames (Machine.trace (process P) (router, rng) xs)
    post.seqCache.size = min (max 1 K) passed.toFinset.card ∧
      post.rateLimiter.size = passed.toFinset.card ∧
      (∀ n, (post.rateLimiter.window n).timestamps.length ≤
        min limit.toNat (passed.count n)) ∧
      post.reputation.scores.keys.card = (xs.map Arrival.prevHopId).toFinset.card := by
  intro router post passed
  have hkeeps : Keeps K limit post (passed.reverse ++ [])
      ((xs.map Arrival.prevHopId).reverse ++ []) :=
    (keeps_new nodeId hmacKey alpha maxHops).run xs
  rw [List.append_nil, List.append_nil] at hkeeps
  refine ⟨?_, ?_, ?_, ?_⟩
  · rw [SeqCache.size_eq, hkeeps.names.length_eq, List.toFinset_reverse]
  · rw [RateLimiter.size, hkeeps.windows, List.toFinset_reverse]
  · intro n
    have hlimit := post.rateLimiter.length_window_le n
    have hstamps := hkeeps.stamps n
    rw [hkeeps.limit] at hlimit
    rw [List.count_reverse] at hstamps
    exact le_min hlimit hstamps
  · rw [hkeeps.scores, List.toFinset_reverse]

end RouterPipeline
end CaccSecure
