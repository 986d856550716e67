import Mathlib.Data.List.Basic
import Mathlib.Data.Finset.Card

/-!
# Recency lists

A bounded list of keys, most recently used first. `touch K a l` moves `a` to
the front, dropping the oldest key when `a` is new and `l` already holds `K`
keys. The stack property of least-recently-used replacement says that the
list is a function of the history alone: after the uses `H` (newest first) it
holds the `K` most recent distinct keys of `H`.
-/

namespace Recency

variable {α : Type*} [DecidableEq α]

/-- Use the key `a` in a recency list of capacity `K`. -/
def touch (K : ℕ) (a : α) (l : List α) : List α :=
  if a ∈ l then a :: l.erase a
  else if K ≤ l.length then a :: l.dropLast
  else a :: l

/-- The `K` most recent distinct keys of a history, newest first. -/
def recent (K : ℕ) (H : List α) : List α := H.eraseDups.take K

variable {K : ℕ} {a b : α} {l H : List α}

theorem touch_of_mem (h : a ∈ l) : touch K a l = a :: l.erase a := if_pos h

theorem touch_of_full (h : a ∉ l) (hK : K ≤ l.length) :
    touch K a l = a :: l.dropLast := by
  rw [touch, if_neg h, if_pos hK]

theorem touch_of_room (h : a ∉ l) (hK : l.length < K) :
    touch K a l = a :: l := by
  rw [touch, if_neg h, if_neg (by omega)]

theorem mem_touch_self : a ∈ touch K a l := by
  unfold touch
  split_ifs <;> exact List.mem_cons_self

/-- A key other than the touched one was there before. -/
theorem mem_of_mem_touch (hne : b ≠ a) (h : b ∈ touch K a l) : b ∈ l := by
  unfold touch at h
  split_ifs at h
  · exact List.mem_of_mem_erase ((List.mem_cons.mp h).resolve_left hne)
  · exact List.dropLast_subset l
      ((List.mem_cons.mp h).resolve_left hne)
  · exact (List.mem_cons.mp h).resolve_left hne

/-- Nothing but the eviction of a full list loses a key. -/
theorem mem_touch_of_mem (hb : b ∈ l) (hroom : a ∈ l ∨ l.length < K) :
    b ∈ touch K a l := by
  by_cases hba : b = a
  · subst hba
    exact mem_touch_self
  by_cases ha : a ∈ l
  · rw [touch_of_mem ha]
    exact List.mem_cons_of_mem _ ((List.mem_erase_of_ne hba).mpr hb)
  · rw [touch_of_room ha (hroom.resolve_left ha)]
    exact List.mem_cons_of_mem _ hb

/-- As long as all keys come from `K` ones, there is room for each of them. -/
theorem room_of_subset {S : Finset α} (hl : l.Nodup) (hS : ∀ b ∈ l, b ∈ S)
    (ha : a ∈ S) (hcard : S.card ≤ K) : a ∈ l ∨ l.length < K := by
  by_cases hmem : a ∈ l
  · exact Or.inl hmem
  · have hsub : (a :: l).toFinset ⊆ S := by
      intro b hb
      rcases List.mem_cons.mp (List.mem_toFinset.mp hb) with rfl | hb
      · exact ha
      · exact hS b hb
    have hle := (Finset.card_le_card hsub).trans hcard
    rw [List.toFinset_card_of_nodup (List.nodup_cons.mpr ⟨hmem, hl⟩)] at hle
    exact Or.inr hle

/-! ## How full a list gets -/

/-- After uses of the keys of `S`, the list holds as many of them as fit; a list of
capacity 0 still holds one key. -/
structure Fills (K : ℕ) (S : Finset α) (l : List α) : Prop where
  nodup : l.Nodup
  subset : ∀ b ∈ l, b ∈ S
  length_eq : l.length = min (max 1 K) S.card

omit [DecidableEq α] in
theorem fills_nil : Fills K (∅ : Finset α) [] :=
  ⟨List.nodup_nil, fun _ hb => absurd hb List.not_mem_nil, by simp⟩

theorem Fills.touch {S : Finset α} (h : Fills K S l) :
    Fills K (insert a S) (touch K a l) := by
  have hlength := h.length_eq
  have hsubset : ∀ b ∈ Recency.touch K a l, b ∈ insert a S := by
    intro b hb
    by_cases hba : b = a
    · exact Finset.mem_insert.mpr (.inl hba)
    · exact Finset.mem_insert_of_mem (h.subset b (mem_of_mem_touch hba hb))
  by_cases hmem : a ∈ l
  · rw [Finset.insert_eq_of_mem (h.subset a hmem)] at hsubset ⊢
    rw [touch_of_mem hmem] at hsubset ⊢
    refine ⟨List.nodup_cons.mpr ⟨h.nodup.not_mem_erase, h.nodup.erase a⟩, hsubset, ?_⟩
    rw [← hlength, List.length_cons, List.length_erase_of_mem hmem]
    have hpos := List.length_pos_of_mem hmem
    omega
  by_cases hfull : K ≤ l.length
  · rw [touch_of_full hmem hfull] at hsubset ⊢
    have hout : a ∉ l.dropLast := fun ha => hmem (List.dropLast_subset l ha)
    have hsub : l.dropLast.Sublist l := List.dropLast_sublist l
    refine ⟨List.nodup_cons.mpr ⟨hout, h.nodup.sublist hsub⟩, hsubset, ?_⟩
    have hle : S.card ≤ (insert a S).card := Finset.card_le_card (Finset.subset_insert a S)
    have hone : 0 < (insert a S).card := Finset.card_pos.mpr (Finset.insert_nonempty a S)
    rw [List.length_cons, List.length_dropLast]
    omega
  -- nothing was ever dropped, so the key is new
  · have hroom : l.length < K := not_le.mp hfull
    rw [touch_of_room hmem hroom] at hsubset ⊢
    have heq : l.toFinset = S := by
      apply Finset.eq_of_subset_of_card_le
      · exact fun b hb => h.subset b (List.mem_toFinset.mp hb)
      · rw [List.toFinset_card_of_nodup h.nodup]
        omega
    have hnew : a ∉ S := by
      rw [← heq, List.mem_toFinset]
      exact hmem
    refine ⟨List.nodup_cons.mpr ⟨hmem, h.nodup⟩, hsubset, ?_⟩
    rw [List.length_cons, Finset.card_insert_of_notMem hnew]
    omega

/-! ## The stack property -/

theorem eraseDups_filter (p : α → Bool) :
    ∀ l : List α, (l.filter p).eraseDups = l.eraseDups.filter p
  | [] => rfl
  | x :: xs => by
      have hlen := List.length_filter_le (fun b => !b == x) xs
      by_cases hx : p x
      · have ih := eraseDups_filter p (xs.filter fun b => !b == x)
        simp only [List.filter_filter] at ih
        simp only [List.filter_cons_of_pos hx, List.eraseDups_cons,
          List.filter_filter, ← ih]
        simp only [Bool.and_comm]
      · have ih := eraseDups_filter p (xs.filter fun b => !b == x)
        rw [List.filter_cons_of_neg hx, List.eraseDups_cons,
          List.filter_cons_of_neg hx, ← ih, List.filter_filter]
        congr 1
        refine List.filter_congr fun b _ => ?_
        -- a kept key differs from `x`, which `p` rejects
        by_cases hb : b = x
        · subst hb
          simp [hx]
        · simp [hb]
termination_by l => l.length

theorem nodup_eraseDups : ∀ l : List α, l.eraseDups.Nodup
  | [] => List.nodup_nil
  | x :: xs => by
      have hlen := List.length_filter_le (fun b => !b == x) xs
      rw [List.eraseDups_cons]
      refine List.nodup_cons.mpr ⟨?_, nodup_eraseDups _⟩
      simp
termination_by l => l.length

theorem length_eraseDups_of_nodup {l : List α} (h : l.Nodup) :
    l.eraseDups.length = l.length :=
  ((List.perm_ext_iff_of_nodup (nodup_eraseDups l) h).mpr fun _ =>
    List.mem_eraseDups).length_eq

theorem eraseDups_cons_erase (a : α) (H : List α) :
    (a :: H).eraseDups = a :: H.eraseDups.erase a := by
  rw [List.eraseDups_cons, eraseDups_filter,
    (nodup_eraseDups H).erase_eq_filter]
  rfl

theorem take_erase_of_mem {n : ℕ} (h : a ∈ l.take (n + 1)) :
    (l.take (n + 1)).erase a = (l.erase a).take n := by
  induction l generalizing n with
  | nil => simp at h
  | cons x xs ih =>
      by_cases hx : x = a
      · subst hx
        simp
      · rw [List.take_succ_cons] at h ⊢
        have hxs : a ∈ xs.take n :=
          (List.mem_cons.mp h).resolve_left (Ne.symm hx)
        cases n with
        | zero => simp at hxs
        | succ n =>
            rw [List.erase_cons_tail (by simpa using hx),
              List.erase_cons_tail (by simpa using hx), ih hxs,
              List.take_succ_cons]

theorem take_erase_of_not_mem {n : ℕ} (h : a ∉ l.take (n + 1)) :
    (l.erase a).take n = l.take n := by
  induction l generalizing n with
  | nil => simp
  | cons x xs ih =>
      rw [List.take_succ_cons] at h
      have hx : x ≠ a := fun heq => h (by simp [heq])
      rw [List.erase_cons_tail (by simpa using hx)]
      cases n with
      | zero => simp
      | succ n =>
          have hxs : a ∉ xs.take (n + 1) :=
            fun hmem => h (List.mem_cons_of_mem _ hmem)
          rw [List.take_succ_cons, List.take_succ_cons, ih hxs]

/-- **Stack property, one use.** Touching `a` in the recency list of `H` gives
the recency list of `a :: H`. -/
theorem touch_recent (hK : 1 ≤ K) :
    touch K a (recent K H) = recent K (a :: H) := by
  obtain ⟨n, rfl⟩ : ∃ n, K = n + 1 := ⟨K - 1, by omega⟩
  unfold recent
  rw [eraseDups_cons_erase, List.take_succ_cons]
  by_cases hmem : a ∈ H.eraseDups.take (n + 1)
  · rw [touch_of_mem hmem, take_erase_of_mem hmem]
  · rw [take_erase_of_not_mem hmem]
    by_cases hfull : n + 1 ≤ (H.eraseDups.take (n + 1)).length
    · have hlen : n + 1 ≤ H.eraseDups.length := by
        rw [List.length_take] at hfull
        omega
      rw [touch_of_full hmem hfull, List.dropLast_eq_take, List.take_take,
        List.length_take]
      congr 2
      omega
    · have hlen : H.eraseDups.length ≤ n := by
        rw [List.length_take] at hfull
        omega
      rw [touch_of_room hmem (by omega), List.take_of_length_le hlen,
        List.take_of_length_le (by omega)]

/-- A key is in the recency list exactly when fewer than `K` distinct keys
were used after its last use. -/
theorem mem_recent_iff {H₁ H₂ : List α} (hH : H = H₁ ++ a :: H₂)
    (hlast : a ∉ H₁) : a ∈ recent K H ↔ H₁.eraseDups.length < K := by
  have hsplit : H.eraseDups =
      H₁.eraseDups ++ a :: ((H₂.removeAll H₁).filter fun b => !b == a).eraseDups := by
    have hkeep : (a :: H₂).removeAll H₁ = a :: H₂.removeAll H₁ := by
      simp [List.removeAll, hlast]
    rw [hH, List.eraseDups_append, hkeep, List.eraseDups_cons]
  have hnot : a ∉ H₁.eraseDups := by simpa using hlast
  unfold recent
  rw [hsplit, List.take_append, List.mem_append]
  constructor
  · rintro (hmem | hmem)
    · exact absurd (List.mem_of_mem_take hmem) hnot
    · by_contra hge
      rw [Nat.sub_eq_zero_of_le (by omega), List.take_zero] at hmem
      cases hmem
  · intro hlt
    right
    obtain ⟨m, hm⟩ : ∃ m, K - H₁.eraseDups.length = m + 1 :=
      ⟨K - H₁.eraseDups.length - 1, by omega⟩
    rw [hm, List.take_succ_cons]
    exact List.mem_cons_self

/-! ## The order of the last uses -/

/-- The keys stand in the order of their last uses in `H`, newest first. -/
def Ordered (H l : List α) : Prop :=
  l.Pairwise fun a b => H.idxOf a < H.idxOf b

theorem ordered_nil : Ordered H ([] : List α) := List.Pairwise.nil

theorem Ordered.nodup (h : Ordered H l) : l.Nodup := by
  refine h.imp fun hlt => ?_
  rintro rfl
  exact lt_irrefl _ hlt

/-- A use of `a` comes before the uses of the keys that stay. -/
theorem Ordered.cons_of_sublist (h : Ordered H l) {l' : List α} (hl : l'.Sublist l)
    (ha : a ∉ l') : Ordered (a :: H) (a :: l') := by
  have hne : ∀ {b}, b ∈ l' → a ≠ b := by
    rintro b hb rfl
    exact ha hb
  refine List.pairwise_cons.mpr ⟨fun b hb => ?_, ?_⟩
  · rw [List.idxOf_cons_self, List.idxOf_cons_ne _ (hne hb)]
    exact Nat.succ_pos _
  · refine List.Pairwise.imp_of_mem ?_ (List.Pairwise.sublist hl h)
    intro b c hb hc hlt
    rw [List.idxOf_cons_ne _ (hne hb), List.idxOf_cons_ne _ (hne hc)]
    exact Nat.succ_lt_succ hlt

/-- Recency lists of every capacity, 0 included, keep the order. -/
theorem Ordered.touch (h : Ordered H l) : Ordered (a :: H) (touch K a l) := by
  unfold Recency.touch
  split_ifs with hmem hfull
  · exact h.cons_of_sublist List.erase_sublist h.nodup.not_mem_erase
  · exact h.cons_of_sublist (List.dropLast_sublist l)
      fun ha => hmem (List.dropLast_subset l ha)
  · exact h.cons_of_sublist (List.Sublist.refl l) hmem

/-- The last key of the list is the one used least recently. -/
theorem Ordered.getLast?_eq_some_iff (h : Ordered H l) : l.getLast? = some a ↔
    a ∈ l ∧ ∀ b ∈ l, b ≠ a → H.idxOf b < H.idxOf a := by
  rcases List.eq_nil_or_concat l with rfl | ⟨init, last, rfl⟩
  · simp
  · rw [List.concat_eq_append] at h ⊢
    obtain ⟨-, -, hlast⟩ := List.pairwise_append.mp h
    have hbefore : ∀ b ∈ init, H.idxOf b < H.idxOf last :=
      fun b hb => hlast b hb last (List.mem_singleton_self last)
    rw [List.getLast?_concat, Option.some.injEq]
    constructor
    · rintro rfl
      refine ⟨List.mem_concat_self, fun b hb hne => hbefore b ?_⟩
      rcases List.mem_append.mp hb with hb | hb
      · exact hb
      · exact absurd (List.mem_singleton.mp hb) hne
    · rintro ⟨ha, hleast⟩
      rcases List.mem_append.mp ha with ha | ha
      · by_contra hne
        have hlt := hleast last List.mem_concat_self hne
        exact absurd (hbefore a ha) (Nat.lt_asymm hlt)
      · exact (List.mem_singleton.mp ha).symm

/-- A use drops a key exactly when it is of a new key, on a full list, and the
dropped key is the last one. -/
theorem not_mem_touch_iff (hl : l.Nodup) (hb : b ∈ l) : b ∉ touch K a l ↔
    a ∉ l ∧ K ≤ l.length ∧ l.getLast? = some b := by
  constructor
  · intro hdropped
    have hroom := mt (mem_touch_of_mem (K := K) (a := a) hb) hdropped
    rw [not_or, not_lt] at hroom
    obtain ⟨ha, hfull⟩ := hroom
    refine ⟨ha, hfull, ?_⟩
    rw [touch_of_full ha hfull, List.mem_cons, not_or] at hdropped
    rcases List.eq_nil_or_concat l with rfl | ⟨init, last, rfl⟩
    · cases hb
    · rw [List.concat_eq_append] at hb hdropped ⊢
      rw [List.dropLast_concat] at hdropped
      have hlast := (List.mem_append.mp hb).resolve_left hdropped.2
      rw [List.getLast?_concat, List.mem_singleton.mp hlast]
  · rintro ⟨ha, hfull, hlast⟩
    have hsplit := List.dropLast_append_getLast? b hlast
    rw [← hsplit, List.nodup_append] at hl
    obtain ⟨-, -, hdisj⟩ := hl
    rw [touch_of_full ha hfull, List.mem_cons, not_or]
    refine ⟨?_, ?_⟩
    · rintro rfl
      exact ha hb
    · exact fun hmem => hdisj b hmem b (List.mem_singleton_self b) rfl

end Recency
