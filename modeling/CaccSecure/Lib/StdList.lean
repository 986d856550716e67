import Mathlib.Data.List.Nodup

/-!
# Linked lists with stable iterators

A doubly linked list in the manner of `std::list`. Every node keeps the handle
it was given when it was pushed; an iterator is such a handle. Pushing and
erasing other nodes leaves an iterator valid, and erasing through an iterator
that names no node is undefined behaviour, here the result `none`.
-/

/-- An iterator. `none` is `end()` and also a default-constructed iterator. -/
abbrev StdIter := Option ℕ

structure StdList (α : Type*) where
  nodes : List (ℕ × α)
  next : ℕ
  handle_lt : ∀ p ∈ nodes, p.1 < next
  handle_nodup : (nodes.map Prod.fst).Nodup

namespace StdList

variable {α : Type*}

def empty : StdList α := ⟨[], 0, by simp, by simp⟩

/-- The values, front to back. -/
def toList (l : StdList α) : List α := l.nodes.map Prod.snd

/-- Remove the nodes that `p` rejects. -/
def keep (l : StdList α) (p : ℕ × α → Bool) : StdList α :=
  ⟨l.nodes.filter p, l.next,
    fun q hq => l.handle_lt q (List.mem_of_mem_filter hq),
    l.handle_nodup.sublist (List.filter_sublist.map Prod.fst)⟩

def pushFront (l : StdList α) (a : α) : StdList α :=
  ⟨(l.next, a) :: l.nodes, l.next + 1,
    by
      intro p hp
      rcases List.mem_cons.mp hp with rfl | hp
      · exact Nat.lt_succ_self _
      · exact Nat.lt_succ_of_lt (l.handle_lt p hp),
    by
      refine List.nodup_cons.mpr ⟨?_, l.handle_nodup⟩
      intro hmem
      obtain ⟨p, hp, heq⟩ := List.mem_map.mp hmem
      exact absurd (l.handle_lt p hp) (by omega)⟩

/-- `begin()`. -/
def begin? (l : StdList α) : StdIter := l.nodes.head?.map Prod.fst

/-- The value an iterator points to, if it names a node. -/
def deref (l : StdList α) (it : StdIter) : Option α :=
  it.bind fun i => (l.nodes.find? fun p => p.1 == i).map Prod.snd

/-- `erase(it)`; undefined unless `it` names a node. -/
def erase (l : StdList α) (it : StdIter) : Option (StdList α) :=
  match it with
  | none => none
  | some i =>
      if i ∈ l.nodes.map Prod.fst then some (l.keep fun p => p.1 != i) else none

/-- `back()`, defined on a nonempty list. -/
def back? (l : StdList α) : Option α := l.toList.getLast?

def popBack (l : StdList α) : StdList α :=
  ⟨l.nodes.dropLast, l.next,
    fun q hq => l.handle_lt q (List.dropLast_subset _ hq),
    l.handle_nodup.sublist ((List.dropLast_sublist _).map Prod.fst)⟩

/-- `clear()`: handles are never given out twice. -/
def clear (l : StdList α) : StdList α := ⟨[], l.next, by simp, by simp⟩

/-! ## Values -/

@[simp] theorem toList_empty : (empty : StdList α).toList = [] := rfl

@[simp] theorem toList_pushFront (l : StdList α) (a : α) :
    (l.pushFront a).toList = a :: l.toList := rfl

@[simp] theorem toList_popBack (l : StdList α) :
    l.popBack.toList = l.toList.dropLast := List.map_dropLast

@[simp] theorem toList_clear (l : StdList α) : l.clear.toList = [] := rfl

/-! ## Iterators -/

theorem deref_eq_some_iff {l : StdList α} {it : StdIter} {a : α} :
    l.deref it = some a ↔ ∃ i, it = some i ∧ (i, a) ∈ l.nodes := by
  constructor
  · intro h
    obtain ⟨i, rfl, h⟩ := Option.bind_eq_some_iff.mp h
    obtain ⟨⟨j, b⟩, hfind, rfl⟩ := Option.map_eq_some_iff.mp h
    have hj : j = i := by simpa using List.find?_some hfind
    subst hj
    exact ⟨j, rfl, List.mem_of_find?_eq_some hfind⟩
  · rintro ⟨i, rfl, hmem⟩
    cases hfind : l.nodes.find? fun p => p.1 == i with
    | none => simpa using List.find?_eq_none.mp hfind (i, a) hmem
    | some p =>
        have hp := List.mem_of_find?_eq_some hfind
        have hpi : p.1 = i := by simpa using List.find?_some hfind
        have heq : p = (i, a) :=
          List.inj_on_of_nodup_map l.handle_nodup hp hmem hpi
        simp [deref, hfind, heq]

theorem deref_begin_pushFront (l : StdList α) (a : α) :
    (l.pushFront a).deref (l.pushFront a).begin? = some a :=
  deref_eq_some_iff.mpr ⟨l.next, rfl, List.mem_cons_self⟩

theorem deref_pushFront {l : StdList α} {it : StdIter} {b : α} (a : α)
    (h : l.deref it = some b) : (l.pushFront a).deref it = some b := by
  obtain ⟨i, rfl, hmem⟩ := deref_eq_some_iff.mp h
  exact deref_eq_some_iff.mpr ⟨i, rfl, List.mem_cons_of_mem _ hmem⟩

/-- Popping the last node leaves the iterators to other values valid. -/
theorem deref_popBack {l : StdList α} {it : StdIter} {b : α}
    (h : l.deref it = some b) (hne : l.back? ≠ some b) :
    l.popBack.deref it = some b := by
  obtain ⟨i, rfl, hmem⟩ := deref_eq_some_iff.mp h
  refine deref_eq_some_iff.mpr ⟨i, rfl, ?_⟩
  rcases List.eq_nil_or_concat l.nodes with hnil | ⟨init, last, hsplit⟩
  · rw [hnil] at hmem
    cases hmem
  · have hback : l.back? = some last.2 := by
      simp [back?, toList, hsplit]
    rw [hsplit, List.concat_eq_append, List.mem_append] at hmem
    rcases hmem with hinit | hlast
    · simpa [popBack, hsplit] using hinit
    · have heq : (i, b) = last := List.mem_singleton.mp hlast
      exact absurd (by rw [hback, ← heq]) hne

/-- Erasing through an iterator to `a` succeeds and removes the value `a`. -/
theorem erase_eq_some [DecidableEq α] {l : StdList α} {it : StdIter} {a : α}
    (hnd : l.toList.Nodup) (h : l.deref it = some a) :
    ∃ l', l.erase it = some l' ∧ l'.toList = l.toList.erase a := by
  obtain ⟨i, rfl, hmem⟩ := deref_eq_some_iff.mp h
  have hi : i ∈ l.nodes.map Prod.fst := List.mem_map.mpr ⟨(i, a), hmem, rfl⟩
  refine ⟨_, if_pos hi, ?_⟩
  rw [hnd.erase_eq_filter]
  simp only [toList, keep, List.filter_map]
  congr 1
  refine List.filter_congr fun p hp => ?_
  -- handles and values are both unique, so they select the same node
  have hkey : p.1 = i ↔ p.2 = a := by
    constructor
    · intro hpi
      rw [List.inj_on_of_nodup_map l.handle_nodup hp hmem hpi]
    · intro hpa
      rw [List.inj_on_of_nodup_map hnd hp hmem hpa]
  simp [hkey, bne]

/-- Erasing leaves the iterators to other values valid. -/
theorem deref_erase {l l' : StdList α} {it it' : StdIter} {a b : α}
    (h : l.deref it = some a) (herase : l.erase it = some l')
    (h' : l.deref it' = some b) (hne : b ≠ a) : l'.deref it' = some b := by
  obtain ⟨i, rfl, hmem⟩ := deref_eq_some_iff.mp h
  obtain ⟨j, rfl, hmem'⟩ := deref_eq_some_iff.mp h'
  have hi : i ∈ l.nodes.map Prod.fst := List.mem_map.mpr ⟨(i, a), hmem, rfl⟩
  have hl' : l' = l.keep fun p => p.1 != i := by
    simpa [erase, hi] using herase.symm
  have hji : j ≠ i := by
    rintro rfl
    have heq := List.inj_on_of_nodup_map l.handle_nodup hmem' hmem rfl
    exact hne (congrArg Prod.snd heq)
  subst hl'
  exact deref_eq_some_iff.mpr
    ⟨j, rfl, List.mem_filter.mpr ⟨hmem', by simpa using hji⟩⟩

end StdList
