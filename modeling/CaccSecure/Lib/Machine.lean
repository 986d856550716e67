import Mathlib.Data.List.Basic
import Mathlib.Data.List.Forall2

/-!
# Step machines and their runs

A machine is a total step function `σ → ι → ο × σ`. `trace` lists the events
of a run with the state before and after each of them, `final` is the state
the run ends in, and `Reach` closes an initial state under the inputs that a
guard allows. The rules below package the inductions over a run, so that a
property of runs is left with a goal about one event.
-/

namespace Machine

variable {σ ι ο : Type*}

/-- One event of a run. -/
structure Event (σ ι ο : Type*) where
  pre : σ
  inp : ι
  out : ο
  post : σ

/-- The events of the run of `step` from `s` on the given inputs, in order. -/
def trace (step : σ → ι → ο × σ) : σ → List ι → List (Event σ ι ο)
  | _, [] => []
  | s, x :: xs => ⟨s, x, (step s x).1, (step s x).2⟩ :: trace step (step s x).2 xs

/-- The state in which the run of `step` from `s` ends. -/
def final (step : σ → ι → ο × σ) : σ → List ι → σ
  | s, [] => s
  | s, x :: xs => final step (step s x).2 xs

variable {step : σ → ι → ο × σ}

@[simp] theorem trace_nil (s : σ) : trace step s [] = [] := rfl

@[simp] theorem final_nil (s : σ) : final step s [] = s := rfl

/-- The events of a trace are steps of the machine. -/
theorem step_of_mem_trace {s : σ} {xs : List ι} {e : Event σ ι ο}
    (h : e ∈ trace step s xs) : step e.pre e.inp = (e.out, e.post) := by
  induction xs generalizing s with
  | nil => cases h
  | cons x xs ih =>
      rcases List.mem_cons.mp h with rfl | h
      · rfl
      · exact ih h

theorem map_inp_trace (s : σ) (xs : List ι) :
    (trace step s xs).map Event.inp = xs := by
  induction xs generalizing s with
  | nil => rfl
  | cons x xs ih => simp [trace, ih]

theorem inp_mem_of_mem_trace {s : σ} {xs : List ι} {e : Event σ ι ο}
    (h : e ∈ trace step s xs) : e.inp ∈ xs := by
  have hmem := List.mem_map_of_mem (f := Event.inp) h
  rwa [map_inp_trace] at hmem

/-- A run goes on from where its first part ends. -/
theorem final_append (s : σ) (xs ys : List ι) :
    final step s (xs ++ ys) = final step (final step s xs) ys := by
  induction xs generalizing s with
  | nil => rfl
  | cons x xs ih => exact ih _

/-- A run with one more input. -/
theorem final_concat (s : σ) (xs : List ι) (x : ι) :
    final step s (xs ++ [x]) = (step (final step s xs) x).2 :=
  final_append s xs [x]

theorem trace_concat (s : σ) (xs : List ι) (x : ι) :
    trace step s (xs ++ [x]) = trace step s xs ++
      [⟨final step s xs, x, (step (final step s xs) x).1, (step (final step s xs) x).2⟩] := by
  induction xs generalizing s with
  | nil => rfl
  | cons y ys ih => exact congrArg _ (ih _)

theorem mem_trace_concat (s : σ) (xs : List ι) (x : ι) :
    ⟨final step s xs, x, (step (final step s xs) x).1, (step (final step s xs) x).2⟩ ∈
      trace step s (xs ++ [x]) := by
  rw [trace_concat]
  exact List.mem_concat_self

/-- Translating the inputs first changes nothing. -/
theorem final_map {κ : Type*} (f : κ → ι) (s : σ) (xs : List κ) :
    final (fun s x => step s (f x)) s xs = final step s (xs.map f) := by
  induction xs generalizing s with
  | nil => rfl
  | cons x xs ih => exact ih _

/-! ## Invariants of runs -/

/-- **Invariant rule.** What the events of a run preserve holds at its end. -/
theorem final_of_events {I : σ → Prop} {s : σ} {xs : List ι} (hs : I s)
    (hstep : ∀ e ∈ trace step s xs, I e.pre → I e.post) :
    I (final step s xs) := by
  induction xs generalizing s with
  | nil => exact hs
  | cons x xs ih =>
      have hhead : I (step s x).2 := hstep _ List.mem_cons_self hs
      exact ih hhead fun e he => hstep e (List.mem_cons_of_mem _ he)

/-- **Event rule.** An invariant of the machine holds before every event. -/
theorem pre_of_mem_trace {I : σ → Prop} {s : σ} {xs : List ι} (hs : I s)
    (hstep : ∀ s x, I s → I (step s x).2) {e : Event σ ι ο}
    (h : e ∈ trace step s xs) : I e.pre := by
  induction xs generalizing s with
  | nil => cases h
  | cons x xs ih =>
      rcases List.mem_cons.mp h with rfl | h
      · exact hs
      · exact ih (hstep s x hs) h

/-- **History rule.** A relation between the state and a log that grows with
every event, kept by every step, holds at the end of a run. -/
theorem final_foldl {γ : Type*} {R : σ → γ → Prop} {f : γ → Event σ ι ο → γ}
    {s : σ} {g : γ} (xs : List ι) (hs : R s g)
    (hstep : ∀ s g x, R s g →
      R (step s x).2 (f g ⟨s, x, (step s x).1, (step s x).2⟩)) :
    R (final step s xs) ((trace step s xs).foldl f g) := by
  induction xs generalizing s g with
  | nil => exact hs
  | cons x xs ih => exact ih (hstep s g x hs)

/-- **Audit rule.** A relation between the state and a log that holds at first,
and that an event keeps exactly when it meets a condition, holds after every
part of a run exactly when every event meets the condition. -/
theorem forall_prefix_iff {γ : Type*} {R : σ → γ → Prop} {f : γ → Event σ ι ο → γ}
    {C : Event σ ι ο → Prop} {s : σ} {g : γ} (xs : List ι) (hs : R s g)
    (hstep : ∀ s g x, R s g →
      (R (step s x).2 (f g ⟨s, x, (step s x).1, (step s x).2⟩) ↔
        C ⟨s, x, (step s x).1, (step s x).2⟩)) :
    (∀ ys, ys <+: xs → R (final step s ys) ((trace step s ys).foldl f g)) ↔
      ∀ e ∈ trace step s xs, C e := by
  induction xs generalizing s g with
  | nil =>
      constructor
      · intro _ e he
        cases he
      · intro _ ys hys
        rw [List.prefix_nil.mp hys]
        exact hs
  | cons x xs ih =>
      rw [trace, List.forall_mem_cons]
      constructor
      · intro hall
        have hpost := hall [x] (List.prefix_append [x] xs)
        refine ⟨(hstep s g x hs).mp hpost, (ih hpost).mp ?_⟩
        intro ys hys
        exact hall (x :: ys) (List.prefix_cons_inj x |>.mpr hys)
      · rintro ⟨hhead, htail⟩ ys hys
        have hpost := (hstep s g x hs).mpr hhead
        cases ys with
        | nil => exact hs
        | cons y ys =>
            obtain ⟨rfl, hrest⟩ := List.cons_prefix_cons.mp hys
            exact (ih hpost).mpr htail ys hrest

/-- **Potential rule.** If every counted event costs one unit of a potential
that no event of the run raises, a run has at most as many counted events as
the potential of its first state. -/
theorem countP_trace_le {φ : σ → ℕ} {p : Event σ ι ο → Bool} {s : σ}
    {xs : List ι}
    (hcost : ∀ e ∈ trace step s xs, (p e).toNat + φ e.post ≤ φ e.pre) :
    (trace step s xs).countP p ≤ φ s := by
  induction xs generalizing s with
  | nil => exact Nat.zero_le _
  | cons x xs ih =>
      have hhead := hcost _ List.mem_cons_self
      have htail := ih fun e he => hcost e (List.mem_cons_of_mem _ he)
      simp only [trace, List.countP_cons] at hhead htail ⊢
      cases hp : p ⟨s, x, (step s x).1, (step s x).2⟩ <;>
        simp [hp] at hhead ⊢ <;> omega

/-! ## Two runs -/

/-- **Projection rule.** A run, and a run of another machine on inputs that
match those that `keep` accepts. If an event that `keep` rejects does not leave
a relation between their states, and matching events neither leave it nor are
told apart by `Q`, then the events that `keep` accepts agree with those of the
other run. -/
theorem forall₂_trace_project {σ' ι' ο' : Type*} {step' : σ' → ι' → ο' × σ'}
    (keep : ι → Bool) {M : ι → ι' → Prop} {R : σ → σ' → Prop}
    {Q : Event σ ι ο → Event σ' ι' ο' → Prop} {s : σ} {s' : σ'} {xs : List ι}
    {ys : List ι'} (hs : R s s') (hys : List.Forall₂ M (xs.filter keep) ys)
    (hskip : ∀ e ∈ trace step s xs, keep e.inp = false →
      ∀ s', R e.pre s' → R e.post s')
    (hkeep : ∀ e ∈ trace step s xs, keep e.inp = true → ∀ s' y, M e.inp y → R e.pre s' →
      R e.post (step' s' y).2 ∧ Q e ⟨s', y, (step' s' y).1, (step' s' y).2⟩) :
    List.Forall₂ Q ((trace step s xs).filter fun e => keep e.inp)
        (trace step' s' ys) ∧
      R (final step s xs) (final step' s' ys) := by
  induction xs generalizing s s' ys with
  | nil =>
      cases hys
      exact ⟨.nil, hs⟩
  | cons x xs ih =>
      have hskip' : ∀ e ∈ trace step (step s x).2 xs, keep e.inp = false →
          ∀ s', R e.pre s' → R e.post s' :=
        fun e he => hskip e (List.mem_cons_of_mem _ he)
      have hkeep' : ∀ e ∈ trace step (step s x).2 xs, keep e.inp = true → ∀ s' y,
          M e.inp y → R e.pre s' →
            R e.post (step' s' y).2 ∧ Q e ⟨s', y, (step' s' y).1, (step' s' y).2⟩ :=
        fun e he => hkeep e (List.mem_cons_of_mem _ he)
      cases hx : keep x with
      | false =>
          have hpost : R (step s x).2 s' := hskip _ List.mem_cons_self hx s' hs
          rw [List.filter_cons_of_neg (by simp [hx])] at hys
          simpa [trace, final, hx] using ih hpost hys hskip' hkeep'
      | true =>
          rw [List.filter_cons_of_pos hx] at hys
          cases hys with
          | cons hmatch hrest =>
              obtain ⟨hpost, hQ⟩ := hkeep _ List.mem_cons_self hx s' _ hmatch hs
              obtain ⟨hevents, hend⟩ := ih hpost hrest hskip' hkeep'
              simp only [trace, final, List.filter_cons, hx, if_true]
              exact ⟨.cons hQ hevents, hend⟩

/-- **Erasure rule.** Two runs of a machine, the second without the inputs that
`keep` rejects. If an erased input does not leave a relation between their
states, and a common one neither leaves it nor gives events that `Q` tells
apart, then the events of the common inputs agree. -/
theorem forall₂_trace_filter (keep : ι → Bool) {R : σ → σ → Prop}
    {Q : Event σ ι ο → Event σ ι ο → Prop} {s s' : σ} {xs : List ι} (hs : R s s')
    (hskip : ∀ e ∈ trace step s xs, keep e.inp = false →
      ∀ s', R e.pre s' → R e.post s')
    (hkeep : ∀ s s' x, R s s' → R (step s x).2 (step s' x).2 ∧
      Q ⟨s, x, (step s x).1, (step s x).2⟩ ⟨s', x, (step s' x).1, (step s' x).2⟩) :
    List.Forall₂ Q ((trace step s xs).filter fun e => keep e.inp)
        (trace step s' (xs.filter keep)) ∧
      R (final step s xs) (final step s' (xs.filter keep)) := by
  have hrefl : List.Forall₂ (· = ·) (xs.filter keep) (xs.filter keep) :=
    List.forall₂_refl _
  refine forall₂_trace_project keep hs hrefl hskip ?_
  rintro ⟨pre, inp, out, post⟩ he - t _ rfl hpre
  have hstep : step pre inp = (out, post) := step_of_mem_trace he
  have hboth := hkeep pre t inp hpre
  rwa [hstep] at hboth

/-! ## Reachability under a guard -/

/-- The states that `step` reaches from `s₀` on inputs that the guard allows
in the state in which they arrive. -/
inductive Reach (step : σ → ι → ο × σ) (allowed : σ → ι → Prop) (s₀ : σ) :
    σ → Prop
  | init : Reach step allowed s₀ s₀
  | step {s : σ} {x : ι} : Reach step allowed s₀ s → allowed s x →
      Reach step allowed s₀ (step s x).2

variable {allowed : σ → ι → Prop} {s₀ : σ}

/-- **Invariant rule** for guarded reachability. -/
theorem Reach.invariant {I : σ → Prop} (hinit : I s₀)
    (hstep : ∀ s x, I s → allowed s x → I (step s x).2) {s : σ}
    (h : Reach step allowed s₀ s) : I s := by
  induction h with
  | init => exact hinit
  | step _ hx ih => exact hstep _ _ ih hx

/-- A run whose events are all allowed reaches the state in which it ends. -/
theorem Reach.final {s : σ} {xs : List ι} (h : Reach step allowed s₀ s)
    (hallowed : ∀ e ∈ trace step s xs, allowed e.pre e.inp) :
    Reach step allowed s₀ (Machine.final step s xs) := by
  induction xs generalizing s with
  | nil => exact h
  | cons x xs ih =>
      have hhead : allowed s x := hallowed _ List.mem_cons_self
      exact ih (h.step hhead) fun e he => hallowed e (List.mem_cons_of_mem _ he)

end Machine
