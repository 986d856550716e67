import CaccSecure.SeqCacheHistory

/-!
# The representation of the SEQN cache

Runs of calls on the private members, where an erase through an invalid iterator
is undefined. Every run is defined and keeps the three containers in agreement,
and a call drops no name but the least recently accepted one, to make room for a
new one. Capacity 0 is included: such a cache holds the name accepted last.
-/

namespace CaccSecure
namespace SeqCache

variable {Name : Type} [DecidableEq Name]

namespace Members

/-- One call on the members; `none` is undefined behaviour. -/
def call (c : Members Name) : Call Name → Option (Bool × Members Name)
  | .validateSequence n s => c.validateSequence n s
  | .clear => some (true, c.clear)

/-- The members after a run of calls, if all of them are defined. -/
def run (c : Members Name) (xs : List (Call Name)) : Option (Members Name) :=
  xs.foldlM (fun c x => (c.call x).map Prod.snd) c

/-- What a call for `n` does to the other names, after the accepted names `A`,
newest first: those that stay keep their iterators, and a name goes exactly if
`n` is new, the cache is full and no other name was accepted less recently. -/
structure Touches (c : Members Name) (A : List Name) (n : Name) (c' : Members Name) :
    Prop where
  handle : ∀ m it, m ≠ n → m ∈ c'.seqTable → c.lruMap.lookup m = some it →
    c'.lruMap.lookup m = some it ∧ c'.lruTracker.deref it = some m
  inserted : n ∉ c.seqTable → n ∈ c'.seqTable
  evicted : ∀ m ∈ c.seqTable, m ∉ c'.seqTable ↔
    n ∉ c.seqTable ∧ c.maxTrackedEntries ≤ c.size ∧
      ∀ m' ∈ c.seqTable, m' ≠ m → A.idxOf m' < A.idxOf m
  one : n ∉ c.seqTable → c.maxTrackedEntries ≤ c.size → c.size ≠ 0 →
    ∃! m, m ∈ c.seqTable ∧ m ∉ c'.seqTable

variable {c c' : Members Name} {A : List Name} {n m : Name} {s : UInt8} {ok : Bool}

/-! ## Handles -/

theorem lookup_lruMap_record (hne : m ≠ n) :
    (c.record n s).lruMap.lookup m = c.lruMap.lookup m :=
  Finmap.lookup_insert_of_ne _ hne

theorem lookup_lruMap_evictOldest (hm : m ∈ c.evictOldest.lruMap) :
    c.evictOldest.lruMap.lookup m = c.lruMap.lookup m := by
  unfold evictOldest at hm ⊢
  split at hm
  · rfl
  · exact Finmap.lookup_erase_ne (Finmap.mem_erase.mp hm).1

/-- A call gives no new iterator to another name. -/
theorem lookup_lruMap_validateSequence (hcall : c.validateSequence n s = some (ok, c'))
    (hne : m ≠ n) (hm : m ∈ c'.lruMap) : c'.lruMap.lookup m = c.lruMap.lookup m := by
  unfold validateSequence at hcall
  split at hcall
  · simp only at hcall
    split_ifs at hcall
    · cases hcall
      rfl
    · cases hcall
      rfl
    · obtain ⟨tracker, -, heq⟩ := Option.map_eq_some_iff.mp hcall
      cases heq
      exact lookup_lruMap_record hne
  · simp only at hcall
    cases hcall
    rw [lookup_lruMap_record hne]
    split_ifs with hfull
    · rw [if_pos hfull] at hm
      apply lookup_lruMap_evictOldest
      rw [← Finmap.lookup_isSome, ← lookup_lruMap_record (s := s) hne,
        Finmap.lookup_isSome]
      exact hm
    · rfl

/-! ## Evictions -/

/-- A rejected call drops nothing. -/
theorem Coherent.touches_self (h : c.Coherent) (hn : n ∈ c.seqTable) :
    c.Touches A n c where
  handle m it _ _ hit := ⟨hit, h.deref m it hit⟩
  inserted _ := hn
  evicted _ hm := ⟨fun hout => absurd hm hout, fun hnew => absurd hn hnew.1⟩
  one hnew := absurd hn hnew

/-- An accepted call drops what the recency list drops. -/
theorem Accepted.touches (h : c.Coherent) (hA : Recency.Ordered A c.lruTracker.toList)
    (hcall : c.validateSequence n s = some (ok, c')) (hacc : Accepted c n s c') :
    c.Touches A n c' := by
  have hdropped : ∀ m ∈ c.seqTable, m ∉ c'.seqTable ↔
      n ∉ c.seqTable ∧ c.maxTrackedEntries ≤ c.size ∧
        c.lruTracker.toList.getLast? = some m := by
    intro m hm
    rw [hacc.coherent.mem_table, hacc.names, h.size_eq, h.mem_table n]
    exact Recency.not_mem_touch_iff h.nodup ((h.mem_table m).mp hm)
  refine ⟨fun m it hne hm hit => ?_, fun _ => ?_, fun m hm => ?_, fun hnew hfull hpos => ?_⟩
  · have hmap : m ∈ c'.lruMap :=
      (hacc.coherent.mem_map m).mpr ((hacc.coherent.mem_table m).mp hm)
    have hit' := (lookup_lruMap_validateSequence hcall hne hmap).trans hit
    exact ⟨hit', hacc.coherent.deref m it hit'⟩
  · rw [hacc.coherent.mem_table, hacc.names]
    exact Recency.mem_touch_self
  · rw [hdropped m hm, hA.getLast?_eq_some_iff]
    simp only [← h.mem_table, hm, true_and]
  · have hne : c.lruTracker.toList ≠ [] := by
      rw [h.size_eq] at hpos
      exact fun hnil => hpos (List.length_eq_zero_iff.mpr hnil)
    have hlast := List.getLast?_eq_some_getLast hne
    have hm := (h.mem_table _).mpr (List.getLast_mem hne)
    refine ⟨_, ⟨hm, (hdropped _ hm).mpr ⟨hnew, hfull, hlast⟩⟩, ?_⟩
    rintro m' ⟨hm', hout⟩
    have hlast' := ((hdropped m' hm').mp hout).2.2
    exact Option.some.inj (hlast'.symm.trans hlast)

/-- **Step.** On coherent members whose list is in the order of the accepted
names, a call is defined and touches the other names as said. -/
theorem Coherent.exists_touches (h : c.Coherent)
    (hA : Recency.Ordered A c.lruTracker.toList) (n : Name) (s : UInt8) :
    ∃ ok c', c.validateSequence n s = some (ok, c') ∧ c.Touches A n c' := by
  rcases validateSequence_cases h (n := n) (s := s) with
    ⟨last, hlast, _, hcall⟩ | ⟨_, c', hcall, hacc⟩
  · exact ⟨false, c, hcall, h.touches_self (Finmap.mem_iff.mpr ⟨last, hlast⟩)⟩
  · exact ⟨true, c', hcall, hacc.touches h hA hcall⟩

end Members

/-! ## Runs -/

/-- The calls of a cache are the calls of its members. -/
theorem call_members (c : SeqCache Name) (x : Call Name) :
    c.members.call x = some ((c.call x).1, (c.call x).2.members) := by
  cases x with
  | validateSequence n s => exact (Option.some_get _).symm
  | clear => rfl

theorem run_members (c : SeqCache Name) (xs : List (Call Name)) :
    c.members.run xs = some (Machine.final call c xs).members := by
  induction xs generalizing c with
  | nil => rfl
  | cons x xs ih =>
      rw [Members.run, List.foldlM_cons, call_members]
      exact ih (c.call x).2

/-- The list is in the order of the last acceptances, newest first. -/
structure Chronicles (K : ℕ) (c : SeqCache Name) (A : List (Name × UInt8)) : Prop where
  capacity : c.maxTrackedEntries = K
  ordered : Recency.Ordered (A.map Prod.fst) c.names
  accepted : ∀ n ∈ c.names, n ∈ A.map Prod.fst

variable {K : ℕ} {c : SeqCache Name} {A : List (Name × UInt8)} {n : Name} {s : UInt8}

theorem Chronicles.accept (h : Chronicles K c A)
    (hacc : (c.validateSequence n s).1 = true) :
    Chronicles K (c.validateSequence n s).2 ((n, s) :: A) := by
  have hnames := names_of_accepted hacc
  refine ⟨by simpa using h.capacity, ?_, fun m hm => ?_⟩
  · rw [hnames, List.map_cons]
    exact h.ordered.touch
  · rw [hnames] at hm
    by_cases hne : m = n
    · rw [hne]
      exact List.mem_cons_self
    · exact List.mem_cons_of_mem _ (h.accepted m (Recency.mem_of_mem_touch hne hm))

theorem Chronicles.call (h : Chronicles K c A) (x : Call Name) :
    Chronicles K (c.call x).2
      (acceptedCalls A ⟨c, x, (c.call x).1, (c.call x).2⟩) := by
  cases x with
  | clear => exact ⟨h.capacity, Recency.ordered_nil, fun _ hm => hm⟩
  | validateSequence n s =>
      cases hv : (c.validateSequence n s).1 with
      | true => simpa [SeqCache.call, acceptedCalls, hv] using h.accept hv
      | false =>
          simpa [SeqCache.call, acceptedCalls, hv, validateSequence_of_rejected hv]
            using h

theorem chronicles_final (K : ℕ) (xs : List (Call Name)) :
    Chronicles K (Machine.final call (new K) xs)
      ((Machine.trace call (new K) xs).foldl acceptedCalls []) :=
  Machine.final_foldl xs ⟨rfl, Recency.ordered_nil, fun _ hm => hm⟩
    fun _ _ x h => h.call x

/-- **Representation invariant.** For every capacity `K` and every run of calls,
with `A` the names accepted since the last `clear`, newest first: no call erases
through an invalid iterator, the containers agree, the cache holds at most
`max 1 K` names, and the next call drops a name only as `Touches` says. -/
theorem representation_invariant (K : ℕ) (xs : List (Call Name)) :
    let A := ((Machine.trace call (new K) xs).foldl acceptedCalls []).map Prod.fst
    ∃ c : Members Name, (new K).members.run xs = some c ∧ c.Coherent ∧
      c.maxTrackedEntries = K ∧ c.size ≤ max 1 K ∧ (∀ n ∈ c.seqTable, n ∈ A) ∧
      ∀ n s, ∃ ok c', c.validateSequence n s = some (ok, c') ∧ c.Touches A n c' := by
  intro A
  have h : Chronicles K (Machine.final call (new K) xs) _ := chronicles_final K xs
  have hcoherent := (Machine.final call (new K) xs).coherent
  have hmax : (Machine.final call (new K) xs).members.maxTrackedEntries = K := h.capacity
  refine ⟨_, run_members (new K) xs, hcoherent, hmax, ?_, ?_,
    hcoherent.exists_touches h.ordered⟩
  · have hle := length_names_le (Machine.final call (new K) xs)
    rw [h.capacity, ← size_eq] at hle
    exact hle
  · exact fun n hn => h.accepted n ((hcoherent.mem_table n).mp hn)

end SeqCache
end CaccSecure
