import Mathlib.Order.Basic
import CaccSecure.Lib.Machine

/-!
# Sliding-window limiters

A limiter keeps the stamps of the inputs it admitted, oldest first. An input
first purges expired stamps from the front, and is then admitted, and stamped,
unless `limit` stamps are left. Stamps are abstract: `expired now t` says when
the stamp `t` is too old at `now`, and need not come from any order.
-/

namespace SlidingWindow

variable {ι τ : Type*} (expired : τ → τ → Bool) (limit : ℕ) (stamp : ι → τ)

/-- One input of the limiter: is it admitted, and which stamps are kept. -/
def offer (stamps : List τ) (x : ι) : Bool × List τ :=
  let kept := stamps.dropWhile (expired (stamp x))
  if limit ≤ kept.length then (false, kept) else (true, kept ++ [stamp x])

variable {expired limit stamp}

theorem length_offer_le {stamps : List τ} {x : ι}
    (h : stamps.length ≤ limit) :
    (offer expired limit stamp stamps x).2.length ≤ limit := by
  have hdrop : (stamps.dropWhile (expired (stamp x))).length ≤ stamps.length :=
    (List.dropWhile_sublist _).length_le
  simp only [offer]
  split_ifs with hfull
  · exact Nat.le_trans hdrop h
  · simp only [List.length_append, List.length_singleton]
    omega

/-- Purging loses no sublist of unexpired stamps. -/
theorem sublist_dropWhile {p : τ → Bool} {kept stamps : List τ}
    (h : kept.Sublist stamps) (hp : ∀ t ∈ kept, p t = false) :
    kept.Sublist (stamps.dropWhile p) := by
  induction h with
  | slnil => exact .slnil
  | @cons kept stamps t h ih =>
      by_cases ht : p t
      · rw [List.dropWhile_cons_of_pos ht]
        exact ih hp
      · rw [List.dropWhile_cons_of_neg ht]
        exact h.cons t
  | @cons_cons kept stamps t h ih =>
      have ht : ¬ p t = true := by simp [hp t List.mem_cons_self]
      rw [List.dropWhile_cons_of_neg ht]
      exact h.cons_cons t

/-- Nothing inside is left once an input is no longer before the end. -/
theorem countP_inside_eq_zero {inside before : ι → Prop} [DecidablePred inside]
    {x : ι} {xs : List ι} {stamps : List τ} (hin : ∀ x, inside x → before x)
    (hdown : ∀ z ∈ xs, before z → before x) (hx : ¬ before x) :
    (Machine.trace (offer expired limit stamp) stamps (x :: xs)).countP
      (fun e => e.out && inside e.inp) = 0 := by
  rw [List.countP_eq_zero]
  intro e he
  have hout : ¬ inside e.inp := by
    rcases List.mem_cons.mp (Machine.inp_mem_of_mem_trace he) with heq | hmem
    · rw [heq]
      exact fun h => hx (hin x h)
    · exact fun h => hx (hdown e.inp hmem (hin _ h))
  simp [hout]

/-- **The limit holds.** Take a stretch of a run, the inputs that are `inside`,
over before the first input that is not `before`. If no stamp of an inside
input is expired for a later input of the stretch, then at most `limit` inputs
inside it are admitted. `live` are the stamps of those admitted so far. -/
theorem countP_admitted_add_le {inside before : ι → Prop}
    [DecidablePred inside] {xs : List ι} {stamps live : List τ}
    (hlen : stamps.length ≤ limit) (hlive : live.Sublist stamps)
    (hfresh : ∀ t ∈ live, ∀ z ∈ xs, before z → expired (stamp z) t = false)
    (hin : ∀ x, inside x → before x)
    (hdown : xs.Pairwise fun x z => before z → before x)
    (hpair : xs.Pairwise fun x z =>
      inside x → before z → expired (stamp z) (stamp x) = false) :
    live.length + (Machine.trace (offer expired limit stamp) stamps xs).countP
      (fun e => e.out && inside e.inp) ≤ limit := by
  induction xs generalizing stamps live with
  | nil =>
      simpa using Nat.le_trans hlive.length_le hlen
  | cons x xs ih =>
      obtain ⟨hdown_x, hdown⟩ := List.pairwise_cons.mp hdown
      obtain ⟨hpair_x, hpair⟩ := List.pairwise_cons.mp hpair
      by_cases hx : before x
      · have hkept : live.Sublist (stamps.dropWhile (expired (stamp x))) :=
          sublist_dropWhile hlive fun t ht => hfresh t ht x List.mem_cons_self hx
        have hfresh' : ∀ t ∈ live, ∀ z ∈ xs, before z →
            expired (stamp z) t = false :=
          fun t ht z hz => hfresh t ht z (List.mem_cons_of_mem _ hz)
        have hlen' : (offer expired limit stamp stamps x).2.length ≤ limit :=
          length_offer_le hlen
        simp only [Machine.trace, List.countP_cons]
        by_cases hfull : limit ≤ (stamps.dropWhile (expired (stamp x))).length
        · have hstep : offer expired limit stamp stamps x =
              (false, stamps.dropWhile (expired (stamp x))) := if_pos hfull
          rw [hstep] at hlen' ⊢
          simpa using ih hlen' hkept hfresh' hdown hpair
        · have hstep : offer expired limit stamp stamps x =
              (true, stamps.dropWhile (expired (stamp x)) ++ [stamp x]) :=
            if_neg hfull
          rw [hstep] at hlen' ⊢
          by_cases hxin : inside x
          · -- the new stamp joins the live ones
            have hrest := ih hlen'
              (hkept.append (List.Sublist.refl [stamp x])) ?_ hdown hpair
            · simp only [List.length_append, List.length_singleton] at hrest
              simp only [hxin, decide_true, Bool.and_self, if_true]
              omega
            · intro t ht z hz hbz
              rcases List.mem_append.mp ht with ht | ht
              · exact hfresh' t ht z hz hbz
              · rw [List.mem_singleton.mp ht]
                exact hpair_x z hz hxin hbz
          · have hrest := ih hlen'
              (hkept.trans (List.sublist_append_left _ _)) hfresh' hdown hpair
            simpa [hxin] using hrest
      · rw [countP_inside_eq_zero hin hdown_x hx]
        exact Nat.le_trans hlive.length_le hlen

/-- The limit from any deque within it. -/
theorem countP_admitted_le {inside before : ι → Prop} [DecidablePred inside]
    {xs : List ι} {stamps : List τ} (hlen : stamps.length ≤ limit)
    (hin : ∀ x, inside x → before x)
    (hdown : xs.Pairwise fun x z => before z → before x)
    (hpair : xs.Pairwise fun x z =>
      inside x → before z → expired (stamp z) (stamp x) = false) :
    (Machine.trace (offer expired limit stamp) stamps xs).countP
      (fun e => e.out && inside e.inp) ≤ limit := by
  have hbound := countP_admitted_add_le hlen (List.nil_sublist _) (by simp) hin hdown hpair
  rwa [List.length_nil, Nat.zero_add] at hbound

/-! ## Exactness

On readings that never go back, the kept stamps count like all the stamps that
were ever admitted. -/

section Exact

variable {κ : Type*} [Preorder κ] {time : τ → κ}

/-- Stamps expire for good, and older ones first. -/
structure Ageing (expired : τ → τ → Bool) (time : τ → κ) : Prop where
  later : ∀ t r r', time t ≤ time r → time r ≤ time r' →
    expired r t = true → expired r' t = true
  older : ∀ t t' r, time t ≤ time t' → time t' ≤ time r →
    expired r t' = true → expired r t = true

/-- The stamps that are not expired at the reading `r`. -/
def live (expired : τ → τ → Bool) (r : τ) (stamps : List τ) : ℕ :=
  stamps.countP fun t => !expired r t

/-- At every reading from `now` on, as many kept stamps are live as admitted
ones. -/
structure Tracks (expired : τ → τ → Bool) (time : τ → κ) (now : κ)
    (kept admitted : List τ) : Prop where
  sorted : kept.Pairwise fun t t' => time t ≤ time t'
  kept_le : ∀ t ∈ kept, time t ≤ now
  admitted_le : ∀ t ∈ admitted, time t ≤ now
  live_eq : ∀ r, now ≤ time r → live expired r kept = live expired r admitted

variable {now now' : κ} {kept admitted : List τ} {r : τ} {x : ι}

theorem tracks_nil : Tracks expired time now [] [] where
  sorted := .nil
  kept_le := by simp
  admitted_le := by simp
  live_eq _ _ := rfl

theorem Tracks.mono (h : Tracks expired time now kept admitted) (hle : now ≤ now') :
    Tracks expired time now' kept admitted where
  sorted := h.sorted
  kept_le t ht := (h.kept_le t ht).trans hle
  admitted_le t ht := (h.admitted_le t ht).trans hle
  live_eq r hr := h.live_eq r (hle.trans hr)

/-- On a sorted list, purging the front removes every expired stamp. -/
theorem dropWhile_eq_filter (hage : Ageing expired time)
    (hsorted : kept.Pairwise fun t t' => time t ≤ time t')
    (hle : ∀ t ∈ kept, time t ≤ time r) :
    kept.dropWhile (expired r) = kept.filter fun t => !expired r t := by
  induction kept with
  | nil => rfl
  | cons t kept ih =>
      obtain ⟨hhead, hsorted⟩ := List.pairwise_cons.mp hsorted
      cases ht : expired r t with
      | true =>
          rw [List.dropWhile_cons_of_pos ht, List.filter_cons_of_neg (by simp [ht])]
          exact ih hsorted fun u hu => hle u (List.mem_cons_of_mem t hu)
      | false =>
          -- nothing behind a live stamp is expired
          have hlive : ∀ u ∈ t :: kept, (!expired r u) = true := by
            intro u hu
            rcases List.mem_cons.mp hu with rfl | hmem
            · simp [ht]
            · cases hu' : expired r u with
              | false => rfl
              | true =>
                  have hold := hage.older t u r (hhead u hmem) (hle u hu) hu'
                  rw [ht] at hold
                  cases hold
          rw [List.dropWhile_cons_of_neg (by simp [ht]),
            List.filter_eq_self.mpr hlive]

/-- What the purge leaves are the live admitted stamps. -/
theorem Tracks.length_purge (h : Tracks expired time now kept admitted)
    (hage : Ageing expired time) (hle : now ≤ time r) :
    (kept.dropWhile (expired r)).length = live expired r admitted := by
  have hkept : ∀ t ∈ kept, time t ≤ time r := fun t ht => (h.kept_le t ht).trans hle
  rw [dropWhile_eq_filter hage h.sorted hkept, ← List.countP_eq_length_filter]
  exact h.live_eq r hle

/-- **Exactness of the verdict.** -/
theorem Tracks.admits_iff (h : Tracks expired time now kept admitted)
    (hage : Ageing expired time) (hle : now ≤ time (stamp x)) :
    (offer expired limit stamp kept x).1 = true ↔
      live expired (stamp x) admitted < limit := by
  have hlen := h.length_purge hage hle
  simp only [offer]
  split_ifs with hfull
  · simp only [false_iff]
    omega
  · simp only [true_iff]
    omega

/-- Later readings do not miss what the purge at `r` removed. -/
theorem Tracks.purge (h : Tracks expired time now kept admitted)
    (hage : Ageing expired time) (hle : now ≤ time r) :
    Tracks expired time (time r) (kept.dropWhile (expired r)) admitted := by
  have hkept : ∀ t ∈ kept, time t ≤ time r := fun t ht => (h.kept_le t ht).trans hle
  have hsub := List.dropWhile_sublist (expired r) (l := kept)
  refine ⟨h.sorted.sublist hsub, fun t ht => hkept t (hsub.subset ht),
    fun t ht => (h.admitted_le t ht).trans hle, fun r' hr' => ?_⟩
  rw [← h.live_eq r' (hle.trans hr'), dropWhile_eq_filter hage h.sorted hkept, live,
    List.countP_filter]
  apply List.countP_congr
  intro t ht
  have hlater := hage.later t r r' (hkept t ht) hr'
  cases hr : expired r t with
  | false => simp
  | true => simp [hlater hr]

/-- **Exactness is kept.** -/
theorem Tracks.offer (h : Tracks expired time now kept admitted)
    (hage : Ageing expired time) (hle : now ≤ time (stamp x)) :
    Tracks expired time (time (stamp x)) (offer expired limit stamp kept x).2
      (if (offer expired limit stamp kept x).1 then stamp x :: admitted else admitted) := by
  have hpurge := h.purge hage hle
  by_cases hfull : limit ≤ (kept.dropWhile (expired (stamp x))).length
  · have hstep : SlidingWindow.offer expired limit stamp kept x =
        (false, kept.dropWhile (expired (stamp x))) := if_pos hfull
    rw [hstep]
    exact hpurge
  · have hstep : SlidingWindow.offer expired limit stamp kept x =
        (true, kept.dropWhile (expired (stamp x)) ++ [stamp x]) := if_neg hfull
    rw [hstep, if_pos rfl]
    refine ⟨?_, ?_, ?_, ?_⟩
    · rw [List.pairwise_append]
      refine ⟨hpurge.sorted, List.pairwise_singleton _ _, fun t ht u hu => ?_⟩
      rw [List.mem_singleton.mp hu]
      exact hpurge.kept_le t ht
    · intro t ht
      rcases List.mem_append.mp ht with ht | ht
      · exact hpurge.kept_le t ht
      · rw [List.mem_singleton.mp ht]
    · intro t ht
      rcases List.mem_cons.mp ht with rfl | ht
      · exact le_refl _
      · exact hpurge.admitted_le t ht
    · intro r hr
      have hcount := hpurge.live_eq r hr
      unfold live at hcount ⊢
      rw [List.countP_append, hcount, List.countP_singleton, List.countP_cons]

end Exact

end SlidingWindow
