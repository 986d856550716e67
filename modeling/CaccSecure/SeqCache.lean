import Mathlib.Data.Finmap
import CaccSecure.Lib.Circular
import CaccSecure.Lib.Recency
import CaccSecure.Lib.StdList

/-!
# Algorithm 2: anti-replay verification

`SeqCache` keeps the last SEQN of each tracked content name in a map, the names
in an LRU list, and for each name the iterator of its list node. The private
members are `SeqCache.Members`; an erase through an invalid iterator is
undefined in C++, so `Members.validateSequence` is partial. A `SeqCache`
carries the coherence of its members, on which the call is always defined.

Its effect is stated once, on the two observations the rest of the development
uses: `lastSeqn c n`, the SEQN stored for a name, and `names c`, the LRU list.
-/

namespace CaccSecure

namespace SeqCache

abbrev seqnModulus : UInt16 := 256

abbrev seqnHalfWin : UInt16 := 128

/-- Line 3 of Algorithm 2, in the 16-bit arithmetic of the source. -/
def circularDiff (lastSeq incomingSeq : UInt8) : UInt16 :=
  (incomingSeq.toUInt16 + seqnModulus - lastSeq.toUInt16) % seqnModulus

/-- The SEQNs that Algorithm 2 accepts after `lastSeq`. -/
def Fresh (lastSeq incomingSeq : UInt8) : Prop :=
  Circular.Newer 256 128 lastSeq.toNat incomingSeq.toNat

theorem toNat_circularDiff (lastSeq incomingSeq : UInt8) :
    (circularDiff lastSeq incomingSeq).toNat =
      Circular.fwd 256 lastSeq.toNat incomingSeq.toNat := by
  have hlast := lastSeq.toNat_lt
  have hin := incomingSeq.toNat_lt
  have hmod : seqnModulus.toNat = 256 := rfl
  have hadd : (incomingSeq.toUInt16 + seqnModulus).toNat =
      incomingSeq.toNat + 256 := by
    rw [UInt16.toNat_add, UInt8.toNat_toUInt16, hmod]
    omega
  have hsub : (incomingSeq.toUInt16 + seqnModulus - lastSeq.toUInt16).toNat =
      incomingSeq.toNat + 256 - lastSeq.toNat := by
    rw [UInt16.toNat_sub_of_le, hadd, UInt8.toNat_toUInt16]
    rw [UInt16.le_iff_toNat_le, hadd, UInt8.toNat_toUInt16]
    omega
  rw [circularDiff, UInt16.toNat_mod, hsub]
  rfl

theorem fresh_iff {lastSeq incomingSeq : UInt8} :
    Fresh lastSeq incomingSeq ↔
      circularDiff lastSeq incomingSeq ≠ 0 ∧
        ¬ circularDiff lastSeq incomingSeq > seqnHalfWin := by
  rw [Fresh, Circular.Newer, ← toNat_circularDiff, ne_eq, ← UInt16.toNat_inj,
    gt_iff_lt, UInt16.lt_iff_toNat_lt]
  have hzero : (0 : UInt16).toNat = 0 := rfl
  have hhalf : seqnHalfWin.toNat = 128 := rfl
  omega

/-- Two SEQNs are each fresh after the other exactly when they are 128 apart. -/
theorem fresh_and_fresh_iff {a b : UInt8} :
    Fresh a b ∧ Fresh b a ↔ circularDiff a b = 128 := by
  rw [← UInt16.toNat_inj, toNat_circularDiff]
  exact Circular.newer_and_newer_iff (h := 128) a.toNat_lt b.toNat_lt

/-- Freshness between the residues of two counters, one ahead of the other. -/
theorem fresh_ofNat {a b : ℕ} (hle : a ≤ b) :
    Fresh (UInt8.ofNat a) (UInt8.ofNat b) ↔
      1 ≤ (b - a) % 256 ∧ (b - a) % 256 ≤ 128 := by
  rw [Fresh, UInt8.toNat_ofNat', UInt8.toNat_ofNat', Circular.Newer,
    Circular.fwd_mod_mod (by decide) hle]

/-- The private members of the class. -/
structure Members (Name : Type) where
  maxTrackedEntries : ℕ
  seqTable : Finmap (fun _ : Name => UInt8)
  lruTracker : StdList Name
  lruMap : Finmap (fun _ : Name => StdIter)

variable {Name : Type} [DecidableEq Name]

namespace Members

def size (c : Members Name) : ℕ := c.seqTable.keys.card

/-- LRU eviction. -/
def evictOldest (c : Members Name) : Members Name :=
  match c.lruTracker.back? with
  | none => c
  | some oldestKey =>
      { c with
        seqTable := c.seqTable.erase oldestKey
        lruMap := c.lruMap.erase oldestKey
        lruTracker := c.lruTracker.popBack }

/-- Store `incomingSeq` and push the name to the front of the LRU list. -/
def record (c : Members Name) (contentName : Name) (incomingSeq : UInt8) :
    Members Name :=
  let lruTracker := c.lruTracker.pushFront contentName
  { c with
    seqTable := c.seqTable.insert contentName incomingSeq
    lruTracker := lruTracker
    lruMap := c.lruMap.insert contentName lruTracker.begin? }

/-- `none` is the undefined behaviour of erasing through `m_lruMap[name]` when
that entry is absent or names no list node. -/
def validateSequence (c : Members Name) (contentName : Name)
    (incomingSeq : UInt8) : Option (Bool × Members Name) :=
  match c.seqTable.lookup contentName with
  | some lastSeq =>
      let diff := circularDiff lastSeq incomingSeq
      if diff = 0 then some (false, c)
      else if diff > seqnHalfWin then some (false, c)
      else
        let handle := (c.lruMap.lookup contentName).getD none
        (c.lruTracker.erase handle).map fun lruTracker =>
          (true, { c with lruTracker := lruTracker }.record contentName incomingSeq)
  | none =>
      let c := if c.size ≥ c.maxTrackedEntries then c.evictOldest else c
      some (true, c.record contentName incomingSeq)

def clear (c : Members Name) : Members Name :=
  { c with seqTable := ∅, lruTracker := c.lruTracker.clear, lruMap := ∅ }

/-- The three containers agree on every name but `n`, which has no node. -/
structure LinkedExcept (c : Members Name) (n : Name) : Prop where
  absent : n ∉ c.lruTracker.toList
  nodup : c.lruTracker.toList.Nodup
  mem_table : ∀ m, m ≠ n → (m ∈ c.seqTable ↔ m ∈ c.lruTracker.toList)
  mem_map : ∀ m, m ≠ n → (m ∈ c.lruMap ↔ m ∈ c.lruTracker.toList)
  deref : ∀ m it, m ≠ n → c.lruMap.lookup m = some it →
    c.lruTracker.deref it = some m

/-- The three containers agree: they hold the same names, the list holds each
once, and the iterator of a name points to the node that holds it. -/
structure Coherent (c : Members Name) : Prop where
  nodup : c.lruTracker.toList.Nodup
  mem_table : ∀ n, n ∈ c.seqTable ↔ n ∈ c.lruTracker.toList
  mem_map : ∀ n, n ∈ c.lruMap ↔ n ∈ c.lruTracker.toList
  deref : ∀ n it, c.lruMap.lookup n = some it → c.lruTracker.deref it = some n
  length_le : c.lruTracker.toList.length ≤ max 1 c.maxTrackedEntries

variable {c : Members Name} {n m : Name} {s : UInt8}

/-! ## What the helpers do -/

theorem Coherent.size_eq (h : c.Coherent) :
    c.size = c.lruTracker.toList.length := by
  have hkeys : c.seqTable.keys = c.lruTracker.toList.toFinset := by
    ext n
    rw [Finmap.mem_keys, List.mem_toFinset, h.mem_table]
  rw [size, hkeys, List.toFinset_card_of_nodup h.nodup]

theorem Coherent.linkedExcept (h : c.Coherent) (hn : n ∉ c.seqTable) :
    c.LinkedExcept n where
  absent := mt (h.mem_table n).mpr hn
  nodup := h.nodup
  mem_table m _ := h.mem_table m
  mem_map m _ := h.mem_map m
  deref m it _ := h.deref m it

/-- On the accept path the iterator of the name is valid, and erasing its node
unlinks this name and no other. -/
theorem Coherent.erase (h : c.Coherent) (hn : n ∈ c.seqTable) :
    ∃ tracker, c.lruTracker.erase ((c.lruMap.lookup n).getD none) = some tracker ∧
      tracker.toList = c.lruTracker.toList.erase n ∧
      { c with lruTracker := tracker }.LinkedExcept n := by
  have hmap : n ∈ c.lruMap := (h.mem_map n).mpr ((h.mem_table n).mp hn)
  obtain ⟨it, hit⟩ := Finmap.mem_iff.mp hmap
  have hderef := h.deref n it hit
  obtain ⟨tracker, herase, hlist⟩ := StdList.erase_eq_some h.nodup hderef
  have hmem : ∀ m, m ≠ n →
      (m ∈ tracker.toList ↔ m ∈ c.lruTracker.toList) := by
    intro m hm
    rw [hlist, List.mem_erase_of_ne hm]
  refine ⟨tracker, by simpa [hit] using herase, hlist, ?_, ?_, ?_, ?_, ?_⟩
  · simpa [hlist] using h.nodup.not_mem_erase
  · simpa [hlist] using h.nodup.erase n
  · exact fun m hm => (h.mem_table m).trans (hmem m hm).symm
  · exact fun m hm => (h.mem_map m).trans (hmem m hm).symm
  · exact fun m it' hm hit' =>
      StdList.deref_erase hderef herase (h.deref m it' hit') hm

theorem evictOldest_toList :
    c.evictOldest.lruTracker.toList = c.lruTracker.toList.dropLast := by
  unfold evictOldest
  cases hback : c.lruTracker.back? with
  | none => simp [List.getLast?_eq_none_iff.mp hback]
  | some oldest => exact StdList.toList_popBack _

theorem evictOldest_max :
    c.evictOldest.maxTrackedEntries = c.maxTrackedEntries := by
  unfold evictOldest
  split <;> rfl

/-- Eviction keeps the SEQN of every name that stays in the list. -/
theorem LinkedExcept.lookup_evictOldest (h : c.LinkedExcept n)
    (hm : m ∈ c.evictOldest.lruTracker.toList) :
    c.evictOldest.seqTable.lookup m = c.seqTable.lookup m := by
  rw [evictOldest_toList] at hm
  unfold evictOldest
  cases hback : c.lruTracker.back? with
  | none => rfl
  | some oldest =>
      have hlast : c.lruTracker.toList.dropLast ++ [oldest] = c.lruTracker.toList :=
        List.dropLast_append_getLast? oldest hback
      apply Finmap.lookup_erase_ne
      rintro rfl
      have hnd := h.nodup
      rw [← hlast, List.nodup_append] at hnd
      obtain ⟨-, -, hdisj⟩ := hnd
      exact hdisj m hm m (List.mem_singleton_self m) rfl

theorem LinkedExcept.evictOldest (h : c.LinkedExcept n) :
    c.evictOldest.LinkedExcept n := by
  unfold Members.evictOldest
  cases hback : c.lruTracker.back? with
  | none => exact h
  | some oldest =>
      have hlast : c.lruTracker.toList.dropLast ++ [oldest] = c.lruTracker.toList :=
        List.dropLast_append_getLast? oldest hback
      have hnd := h.nodup
      rw [← hlast, List.nodup_append] at hnd
      obtain ⟨hkept, -, hdisj⟩ := hnd
      have hmem : ∀ m, m ∈ c.lruTracker.toList.dropLast ↔
          m ≠ oldest ∧ m ∈ c.lruTracker.toList := by
        intro m
        rw [← hlast, List.dropLast_concat, List.mem_append, List.mem_singleton]
        constructor
        · intro hm
          exact ⟨fun heq => hdisj m hm oldest (List.mem_singleton_self _) heq,
            Or.inl hm⟩
        · rintro ⟨hne, hm | hm⟩
          · exact hm
          · exact absurd hm hne
      refine ⟨?_, ?_, ?_, ?_, ?_⟩
      · rw [StdList.toList_popBack, hmem]
        exact fun hm => h.absent hm.2
      · simpa using hkept
      · intro m hm
        rw [StdList.toList_popBack, hmem, Finmap.mem_erase, h.mem_table m hm]
      · intro m hm
        rw [StdList.toList_popBack, hmem, Finmap.mem_erase, h.mem_map m hm]
      · intro m it hm hit
        have hne : m ≠ oldest := by
          rintro rfl
          simp at hit
        rw [Finmap.lookup_erase_ne hne] at hit
        apply StdList.deref_popBack (h.deref m it hm hit)
        rw [hback]
        exact fun heq => hne (Option.some.inj heq).symm

theorem lookup_record : (c.record n s).seqTable.lookup m =
    if m = n then some s else c.seqTable.lookup m := by
  unfold record
  split_ifs with hm
  · subst hm
    exact Finmap.lookup_insert _
  · exact Finmap.lookup_insert_of_ne _ hm

/-- Recording the missing name links it again. -/
theorem LinkedExcept.record (h : c.LinkedExcept n)
    (hlen : c.lruTracker.toList.length + 1 ≤ max 1 c.maxTrackedEntries) :
    (c.record n s).Coherent := by
  refine ⟨?_, ?_, ?_, ?_, ?_⟩
  · exact List.nodup_cons.mpr ⟨h.absent, h.nodup⟩
  · intro m
    by_cases hm : m = n
    · simp [Members.record, hm]
    · simp [Members.record, hm, h.mem_table m hm]
  · intro m
    by_cases hm : m = n
    · simp [Members.record, hm]
    · simp [Members.record, hm, h.mem_map m hm]
  · intro m it hit
    by_cases hm : m = n
    · subst hm
      have heq : (c.lruTracker.pushFront m).begin? = it := by
        simpa [Members.record] using hit
      rw [← heq]
      exact StdList.deref_begin_pushFront _ _
    · have hit' : c.lruMap.lookup m = some it := by
        simpa [Members.record, Finmap.lookup_insert_of_ne _ hm] using hit
      exact StdList.deref_pushFront _ (h.deref m it hm hit')
  · simpa [Members.record] using hlen

/-! ## The call -/

theorem validateSequence_of_stale {last : UInt8}
    (hlast : c.seqTable.lookup n = some last) (hstale : ¬ Fresh last s) :
    c.validateSequence n s = some (false, c) := by
  rw [fresh_iff] at hstale
  simp only [validateSequence, hlast]
  split_ifs with hdup hback
  · rfl
  · rfl
  · exact absurd ⟨hdup, hback⟩ hstale

/-- What an accepted call leaves behind. -/
structure Accepted (c : Members Name) (n : Name) (s : UInt8) (c' : Members Name) :
    Prop where
  coherent : c'.Coherent
  max_eq : c'.maxTrackedEntries = c.maxTrackedEntries
  names : c'.lruTracker.toList =
    Recency.touch c.maxTrackedEntries n c.lruTracker.toList
  lookup : ∀ m, c'.seqTable.lookup m =
    if m = n then some s
    else if m ∈ c'.lruTracker.toList then c.seqTable.lookup m
    else none

/-- A name outside the list has no SEQN, one inside keeps it if it stays. -/
theorem Accepted.of_lookup {c' : Members Name} (hcoh : c'.Coherent)
    (hmax : c'.maxTrackedEntries = c.maxTrackedEntries)
    (hnames : c'.lruTracker.toList =
      Recency.touch c.maxTrackedEntries n c.lruTracker.toList)
    (hself : c'.seqTable.lookup n = some s)
    (hother : ∀ m, m ≠ n → m ∈ c'.lruTracker.toList →
      c'.seqTable.lookup m = c.seqTable.lookup m) : Accepted c n s c' := by
  refine ⟨hcoh, hmax, hnames, fun m => ?_⟩
  split_ifs with hm hmem
  · rw [hm, hself]
  · exact hother m hm hmem
  · exact Finmap.lookup_eq_none.mpr (mt (hcoh.mem_table m).mp hmem)

theorem validateSequence_of_fresh (h : c.Coherent) {last : UInt8}
    (hlast : c.seqTable.lookup n = some last) (hfresh : Fresh last s) :
    ∃ c', c.validateSequence n s = some (true, c') ∧ Accepted c n s c' := by
  have hn : n ∈ c.seqTable := Finmap.mem_iff.mpr ⟨last, hlast⟩
  have hmem : n ∈ c.lruTracker.toList := (h.mem_table n).mp hn
  obtain ⟨tracker, herase, hlist, hlinked⟩ := h.erase hn
  obtain ⟨hdup, hback⟩ := fresh_iff.mp hfresh
  have hlen : tracker.toList.length + 1 = c.lruTracker.toList.length := by
    rw [hlist, List.length_erase_of_mem hmem]
    have hpos := List.length_pos_of_mem hmem
    omega
  refine ⟨{ c with lruTracker := tracker }.record n s, ?_, ?_⟩
  · simp only [validateSequence, hlast, if_neg hdup, if_neg hback, herase,
      Option.map_some]
  · refine .of_lookup (hlinked.record ?_) rfl ?_ ?_ ?_
    · have hle := h.length_le
      simp only
      omega
    · rw [Recency.touch_of_mem hmem, ← hlist]
      rfl
    · simp [lookup_record]
    · intro m hm _
      simp [lookup_record, hm]

theorem validateSequence_of_new (h : c.Coherent)
    (hnew : c.seqTable.lookup n = none) :
    ∃ c', c.validateSequence n s = some (true, c') ∧ Accepted c n s c' := by
  have hn : n ∉ c.seqTable := Finmap.lookup_eq_none.mp hnew
  have hmem : n ∉ c.lruTracker.toList := mt (h.mem_table n).mpr hn
  have hlinked := h.linkedExcept hn
  have hle := h.length_le
  by_cases hfull : c.size ≥ c.maxTrackedEntries
  · refine ⟨c.evictOldest.record n s, ?_, ?_⟩
    · simp only [validateSequence, hnew, if_pos hfull]
    · refine .of_lookup (hlinked.evictOldest.record ?_) evictOldest_max ?_ ?_ ?_
      · rw [evictOldest_toList, evictOldest_max, List.length_dropLast]
        omega
      · rw [h.size_eq] at hfull
        rw [Recency.touch_of_full hmem hfull, ← evictOldest_toList]
        rfl
      · simp [lookup_record]
      · intro m hm hm'
        rw [lookup_record, if_neg hm]
        exact hlinked.lookup_evictOldest ((List.mem_cons.mp hm').resolve_left hm)
  · have hroom : c.lruTracker.toList.length < c.maxTrackedEntries := by
      rw [← h.size_eq]
      omega
    refine ⟨c.record n s, ?_, ?_⟩
    · simp only [validateSequence, hnew, if_neg hfull]
    · refine .of_lookup (hlinked.record (by omega)) rfl ?_ ?_ ?_
      · rw [Recency.touch_of_room hmem hroom]
        rfl
      · simp [lookup_record]
      · intro m hm _
        rw [lookup_record, if_neg hm]

/-- **No undefined behaviour.** On coherent members the call returns, either
rejecting with nothing changed or accepting. -/
theorem validateSequence_cases (h : c.Coherent) :
    (∃ last, c.seqTable.lookup n = some last ∧ ¬ Fresh last s ∧
      c.validateSequence n s = some (false, c)) ∨
    ((∀ last, c.seqTable.lookup n = some last → Fresh last s) ∧
      ∃ c', c.validateSequence n s = some (true, c') ∧ Accepted c n s c') := by
  cases hlast : c.seqTable.lookup n with
  | none =>
      refine Or.inr ⟨fun last heq => ?_, validateSequence_of_new h hlast⟩
      cases heq
  | some last =>
      by_cases hfresh : Fresh last s
      · refine Or.inr ⟨fun last' heq => ?_, validateSequence_of_fresh h hlast hfresh⟩
        cases heq
        exact hfresh
      · exact Or.inl ⟨last, rfl, hfresh, validateSequence_of_stale hlast hfresh⟩

theorem coherent_clear : c.clear.Coherent := by
  refine ⟨?_, ?_, ?_, ?_, ?_⟩ <;> simp [clear, Finmap.notMem_empty]

end Members

end SeqCache

/-- A SEQN cache: private members that agree with each other. -/
structure SeqCache (Name : Type) [DecidableEq Name] where
  members : SeqCache.Members Name
  coherent : members.Coherent

namespace SeqCache

variable {Name : Type} [DecidableEq Name]

/-- The constructor. -/
def new (maxTrackedEntries : ℕ) : SeqCache Name where
  members := ⟨maxTrackedEntries, ∅, StdList.empty, ∅⟩
  coherent := by
    refine ⟨?_, ?_, ?_, ?_, ?_⟩ <;> simp [Finmap.notMem_empty]

theorem isSome_validateSequence (c : SeqCache Name) (n : Name) (s : UInt8) :
    (c.members.validateSequence n s).isSome := by
  rcases Members.validateSequence_cases c.coherent (n := n) (s := s) with
    ⟨_, _, _, heq⟩ | ⟨_, _, heq, _⟩ <;> simp [heq]

def validateSequence (c : SeqCache Name) (contentName : Name)
    (incomingSeq : UInt8) : Bool × SeqCache Name :=
  let r := (c.members.validateSequence contentName incomingSeq).get
    (isSome_validateSequence c contentName incomingSeq)
  (r.1, ⟨r.2, by
    rcases Members.validateSequence_cases c.coherent
      (n := contentName) (s := incomingSeq) with
      ⟨_, _, _, heq⟩ | ⟨_, _, heq, hacc⟩
    · simpa [r, heq] using c.coherent
    · simpa [r, heq] using hacc.coherent⟩)

def clear (c : SeqCache Name) : SeqCache Name :=
  ⟨c.members.clear, Members.coherent_clear⟩

def size (c : SeqCache Name) : ℕ := c.members.size

/-! ## Observations -/

/-- The SEQN stored for a name, if the name is tracked. -/
def lastSeqn (c : SeqCache Name) (n : Name) : Option UInt8 :=
  c.members.seqTable.lookup n

/-- The tracked names, most recently accepted first. -/
def names (c : SeqCache Name) : List Name := c.members.lruTracker.toList

def maxTrackedEntries (c : SeqCache Name) : ℕ := c.members.maxTrackedEntries

variable {c : SeqCache Name} {n m : Name} {s : UInt8}

theorem nodup_names (c : SeqCache Name) : c.names.Nodup := c.coherent.nodup

theorem length_names_le (c : SeqCache Name) :
    c.names.length ≤ max 1 c.maxTrackedEntries := c.coherent.length_le

theorem size_eq (c : SeqCache Name) : c.size = c.names.length :=
  c.coherent.size_eq

theorem lastSeqn_eq_none_iff : c.lastSeqn n = none ↔ n ∉ c.names := by
  rw [lastSeqn, Finmap.lookup_eq_none, c.coherent.mem_table]
  rfl

theorem mem_names_iff : n ∈ c.names ↔ ∃ last, c.lastSeqn n = some last := by
  rw [← Option.ne_none_iff_exists', ne_eq, lastSeqn_eq_none_iff, not_not]

@[simp] theorem lastSeqn_new (K : ℕ) (n : Name) :
    (new K : SeqCache Name).lastSeqn n = none := Finmap.lookup_empty n

@[simp] theorem names_new (K : ℕ) : (new K : SeqCache Name).names = [] := rfl

@[simp] theorem maxTrackedEntries_new (K : ℕ) :
    (new K : SeqCache Name).maxTrackedEntries = K := rfl

@[simp] theorem lastSeqn_clear (c : SeqCache Name) (n : Name) :
    c.clear.lastSeqn n = none := Finmap.lookup_empty n

@[simp] theorem names_clear (c : SeqCache Name) : c.clear.names = [] := rfl

@[simp] theorem maxTrackedEntries_clear (c : SeqCache Name) :
    c.clear.maxTrackedEntries = c.maxTrackedEntries := rfl

/-- **Verdict and effect of a call.** -/
theorem validateSequence_cases (c : SeqCache Name) (n : Name) (s : UInt8) :
    (∃ last, c.lastSeqn n = some last ∧ ¬ Fresh last s ∧
      c.validateSequence n s = (false, c)) ∨
    ((∀ last, c.lastSeqn n = some last → Fresh last s) ∧
      (c.validateSequence n s).1 = true ∧
      Members.Accepted c.members n s (c.validateSequence n s).2.members) := by
  rcases Members.validateSequence_cases c.coherent (n := n) (s := s) with
    ⟨last, hlast, hstale, heq⟩ | ⟨hfresh, c', heq, hacc⟩
  · refine Or.inl ⟨last, hlast, hstale, ?_⟩
    simp [validateSequence, heq]
  · refine Or.inr ⟨hfresh, ?_, ?_⟩
    · simp [validateSequence, heq]
    · simpa [validateSequence, heq] using hacc

theorem validateSequence_fst :
    (c.validateSequence n s).1 = true ↔
      ∀ last, c.lastSeqn n = some last → Fresh last s := by
  rcases validateSequence_cases c n s with
    ⟨last, hlast, hstale, heq⟩ | ⟨hfresh, htrue, -⟩
  · rw [heq]
    exact ⟨fun h => (Bool.false_ne_true h).elim,
      fun h => absurd (h last hlast) hstale⟩
  · exact ⟨fun _ => hfresh, fun _ => htrue⟩

/-- A rejected call changes nothing. -/
theorem validateSequence_of_rejected (h : (c.validateSequence n s).1 = false) :
    (c.validateSequence n s).2 = c := by
  rcases validateSequence_cases c n s with ⟨_, _, _, heq⟩ | ⟨_, htrue, -⟩
  · rw [heq]
  · rw [htrue] at h
    cases h

theorem accepted_of_fst (h : (c.validateSequence n s).1 = true) :
    Members.Accepted c.members n s (c.validateSequence n s).2.members := by
  rcases validateSequence_cases c n s with ⟨_, _, _, heq⟩ | ⟨_, _, hacc⟩
  · rw [heq] at h
    cases h
  · exact hacc

theorem names_of_accepted (h : (c.validateSequence n s).1 = true) :
    (c.validateSequence n s).2.names =
      Recency.touch c.maxTrackedEntries n c.names := (accepted_of_fst h).names

theorem lastSeqn_of_accepted (h : (c.validateSequence n s).1 = true) (m : Name) :
    (c.validateSequence n s).2.lastSeqn m =
      if m = n then some s
      else if m ∈ (c.validateSequence n s).2.names then c.lastSeqn m
      else none := (accepted_of_fst h).lookup m

theorem lastSeqn_self (h : (c.validateSequence n s).1 = true) :
    (c.validateSequence n s).2.lastSeqn n = some s := by
  rw [lastSeqn_of_accepted h, if_pos rfl]

@[simp] theorem maxTrackedEntries_validateSequence :
    (c.validateSequence n s).2.maxTrackedEntries = c.maxTrackedEntries := by
  cases h : (c.validateSequence n s).1 with
  | false => rw [validateSequence_of_rejected h]
  | true => exact (accepted_of_fst h).max_eq

/-- A call for `n` leaves the SEQN of another name alone, or evicts that name. -/
theorem lastSeqn_of_ne (hm : m ≠ n) :
    (c.validateSequence n s).2.lastSeqn m = c.lastSeqn m ∨
      (c.validateSequence n s).2.lastSeqn m = none := by
  cases h : (c.validateSequence n s).1 with
  | false => exact Or.inl (by rw [validateSequence_of_rejected h])
  | true =>
      rw [lastSeqn_of_accepted h, if_neg hm]
      split_ifs
      · exact Or.inl rfl
      · exact Or.inr rfl

/-- **No eviction.** With room for `n`, no other name is evicted. -/
theorem lastSeqn_of_ne_of_room (hm : m ≠ n)
    (hroom : n ∈ c.names ∨ c.names.length < c.maxTrackedEntries) :
    (c.validateSequence n s).2.lastSeqn m = c.lastSeqn m := by
  cases h : (c.validateSequence n s).1 with
  | false => rw [validateSequence_of_rejected h]
  | true =>
      rw [lastSeqn_of_accepted h, if_neg hm]
      split_ifs with hkept
      · rfl
      · rw [names_of_accepted h] at hkept
        apply Eq.symm
        apply lastSeqn_eq_none_iff.mpr
        exact fun hmem => hkept (Recency.mem_touch_of_mem hmem hroom)

end SeqCache
end CaccSecure
