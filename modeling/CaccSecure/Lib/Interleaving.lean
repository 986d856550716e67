import CaccSecure.Lib.Machine
import Mathlib.Data.Stream.Init

/-!
# Interleaved machines

A bank of machines of one kind, of which every input drives one. The machines
share nothing but a supply of draws: a step takes the first draw or leaves the
supply alone. Whatever the others do, each machine runs as it would run alone
on its own inputs, with the draws that it happened to take; and if no draw
matters to a relation, then neither does the order in which inputs of different
machines come.
-/

namespace Interleaving

variable {κ σ τ ι ι' ο ρ : Type*}

/-- A step that leaves the draws alone, or takes the first one. -/
def Frugal (step : σ × Stream' ρ → ι → ο × (σ × Stream' ρ)) : Prop :=
  ∀ s x, (∃ o s', ∀ r, step (s, r) x = (o, s', r)) ∨
    ∃ f : ρ → ο × σ, ∀ r, step (s, r) x = ((f r.head).1, (f r.head).2, r.tail)

/-- The machine `big` runs a machine `step` for each key: an input drives the
one that is its target, with the draws that all of them share. -/
structure Bank (big : τ → ι' → ο × τ) (step : σ × Stream' ρ → ι → ο × (σ × Stream' ρ))
    (target : ι' → κ) (body : ι' → ι) (view : τ → κ → σ) (draws : τ → Stream' ρ) :
    Prop where
  own : ∀ t x, step (view t (target x), draws t) (body x) =
    ((big t x).1, view (big t x).2 (target x), draws (big t x).2)
  other : ∀ t x k, k ≠ target x → view (big t x).2 k = view t k

variable [DecidableEq κ]

/-- The inputs of the machine `k`. -/
def inputsOf (target : ι' → κ) (body : ι' → ι) (k : κ) (xs : List ι') : List ι :=
  (xs.filter fun x => target x = k).map body

/-- The outputs of the machine `k`. -/
def outputsOf (target : ι' → κ) (k : κ) (run : List (Machine.Event τ ι' ο)) : List ο :=
  (run.filter fun e => target e.inp = k).map Machine.Event.out

variable {big : τ → ι' → ο × τ} {step : σ × Stream' ρ → ι → ο × (σ × Stream' ρ)}
  {target : ι' → κ} {body : ι' → ι} {view : τ → κ → σ} {draws : τ → Stream' ρ}

theorem inputsOf_cons_self (x : ι') (xs : List ι') :
    inputsOf target body (target x) (x :: xs) =
      body x :: inputsOf target body (target x) xs := by
  simp [inputsOf]

theorem inputsOf_cons_of_ne {k : κ} {x : ι'} (hne : target x ≠ k) (xs : List ι') :
    inputsOf target body k (x :: xs) = inputsOf target body k xs := by
  simp [inputsOf, hne]

theorem outputsOf_trace_cons (k : κ) (t : τ) (x : ι') (xs : List ι') :
    outputsOf target k (Machine.trace big t (x :: xs)) =
      if target x = k then
        (big t x).1 :: outputsOf target k (Machine.trace big (big t x).2 xs)
      else outputsOf target k (Machine.trace big (big t x).2 xs) := by
  by_cases hk : target x = k <;> simp [outputsOf, Machine.trace, hk]

/-- A frugal step with the draw that it takes in front of any other draws. -/
theorem Frugal.replay (hfrugal : Frugal step) (s : σ) (x : ι) (r rest : Stream' ρ) :
    ∃ r', step (s, r') x = ((step (s, r) x).1, (step (s, r) x).2.1, rest) := by
  rcases hfrugal s x with ⟨o, s', hstep⟩ | ⟨f, hstep⟩
  · exact ⟨rest, by rw [hstep, hstep]⟩
  · refine ⟨Stream'.cons r.head rest, ?_⟩
    rw [hstep, hstep]
    rfl

/-- **Locality.** A machine of a bank runs as it would alone on its own inputs,
with some draws. -/
theorem Bank.project (h : Bank big step target body view draws) (hfrugal : Frugal step)
    (k : κ) (t : τ) (xs : List ι') :
    ∃ r, (Machine.trace step (view t k, r) (inputsOf target body k xs)).map
          Machine.Event.out = outputsOf target k (Machine.trace big t xs) ∧
      (Machine.final step (view t k, r) (inputsOf target body k xs)).1 =
        view (Machine.final big t xs) k := by
  induction xs generalizing t with
  | nil => exact ⟨draws t, rfl, rfl⟩
  | cons x xs ih =>
      obtain ⟨rest, houts, hfinal⟩ := ih (big t x).2
      by_cases hk : target x = k
      · subst hk
        obtain ⟨r, hr⟩ := hfrugal.replay (view t (target x)) (body x) (draws t) rest
        rw [h.own] at hr
        refine ⟨r, ?_, ?_⟩
        · rw [inputsOf_cons_self, Machine.trace, List.map_cons, hr, houts,
            outputsOf_trace_cons, if_pos rfl]
        · rw [inputsOf_cons_self, Machine.final, hr, hfinal]
          rfl
      · rw [h.other t x k (Ne.symm hk)] at houts hfinal
        refine ⟨rest, ?_, ?_⟩
        · rw [inputsOf_cons_of_ne hk, houts, outputsOf_trace_cons, if_neg hk]
        · rw [inputsOf_cons_of_ne hk, hfinal]
          rfl

/-- Two runs of one machine on the same inputs, with different draws, that no
step tells apart. -/
theorem forall₂_out_of_blind {R : σ → σ → Prop} {Q : ο → ο → Prop}
    (hblind : ∀ s s' r r' x, R s s' → R (step (s, r) x).2.1 (step (s', r') x).2.1 ∧
      Q (step (s, r) x).1 (step (s', r') x).1)
    {s s' : σ} (hs : R s s') (r r' : Stream' ρ) (xs : List ι) :
    List.Forall₂ Q ((Machine.trace step (s, r) xs).map Machine.Event.out)
        ((Machine.trace step (s', r') xs).map Machine.Event.out) ∧
      R (Machine.final step (s, r) xs).1 (Machine.final step (s', r') xs).1 := by
  induction xs generalizing s s' r r' with
  | nil => exact ⟨.nil, hs⟩
  | cons x xs ih =>
      obtain ⟨hpost, hout⟩ := hblind s s' r r' x hs
      obtain ⟨houts, hend⟩ := ih hpost (step (s, r) x).2.2 (step (s', r') x).2.2
      exact ⟨.cons hout houts, hend⟩

/-- **Blind locality.** To a relation that no draw matters to, a machine of a
bank runs as it would alone with any draws. -/
theorem Bank.project_blind (h : Bank big step target body view draws)
    (hfrugal : Frugal step) {R : σ → σ → Prop} {Q : ο → ο → Prop}
    (hblind : ∀ s s' r r' x, R s s' → R (step (s, r) x).2.1 (step (s', r') x).2.1 ∧
      Q (step (s, r) x).1 (step (s', r') x).1)
    (hrefl : ∀ s, R s s) (k : κ) (t : τ) (xs : List ι') (r : Stream' ρ) :
    List.Forall₂ Q (outputsOf target k (Machine.trace big t xs))
        ((Machine.trace step (view t k, r) (inputsOf target body k xs)).map
          Machine.Event.out) ∧
      R (view (Machine.final big t xs) k)
        (Machine.final step (view t k, r) (inputsOf target body k xs)).1 := by
  obtain ⟨r', houts, hfinal⟩ := h.project hfrugal k t xs
  rw [← houts, ← hfinal]
  exact forall₂_out_of_blind hblind (hrefl _) r' r _

end Interleaving
