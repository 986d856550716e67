import CaccSecure.Lib.Ewma
import CaccSecure.Lib.Machine
import CaccSecure.Reputation
import Mathlib.Tactic.NormNum

/-!
# Trust as a moving average

On the updates of one neighbour the table computes an exponentially weighted
moving average, whatever the updates of the others. It starts from 0, the value
that `operator[]` inserts, and not from the initial trust that `getTrustScore`
reports until then; the two averages differ by `initialTrust * d ^ n`.
-/

namespace CaccSecure
namespace ReputationTable

/-- An update as an input of the table. -/
def record (t : ReputationTable) (u : UInt32 × Bool) : Unit × ReputationTable :=
  ((), t.update u.1 u.2)

/-- The updates of a neighbour, in order. -/
def history (h : UInt32) (us : List (UInt32 × Bool)) : List Bool :=
  (us.filter fun u => u.1 = h).map Prod.snd

/-- A consistent event counts 1, an inconsistent one 0. -/
def evidence (consistent : Bool) : ℚ := if consistent then 1 else 0

/-- The average of the neighbour's events that starts from the initial trust. -/
def averageTrust (initialTrust d : ℚ) (events : List Bool) : ℚ :=
  Ewma.weightedAverage d initialTrust (events.map evidence)

/-- A consistent event of the neighbour does not lower its trust, and an
inconsistent one does not raise it. -/
def FollowsEvents (h : UInt32)
    (run : List (Machine.Event ReputationTable (UInt32 × Bool) Unit)) : Prop :=
  ∀ e ∈ run, e.inp.1 = h →
    if e.inp.2 then e.pre.getTrustScore h ≤ e.post.getTrustScore h
    else e.post.getTrustScore h ≤ e.pre.getTrustScore h

/-- The stored value, 0 when there is none. -/
def level (t : ReputationTable) (h : UInt32) : ℚ := (t.stored h).getD 0

variable {t : ReputationTable} {h : UInt32} {us : List (UInt32 × Bool)} {d x : ℚ}
  {consistent : Bool}

theorem evidence_mem (consistent : Bool) :
    0 ≤ evidence consistent ∧ evidence consistent ≤ 1 := by
  cases consistent <;> norm_num [evidence]

/-- The clamp of an update never acts. -/
theorem decayed_eq_step (hd : 0 ≤ d ∧ d ≤ 1) (hx : 0 ≤ x ∧ x ≤ 1) :
    decayed d x consistent = x * d + (1 - d) * evidence consistent := by
  cases consistent with
  | true =>
      rw [decayed_true_eq hd.1 hd.2 hx.1 hx.2, evidence, if_pos rfl]
      ring
  | false =>
      rw [decayed_false_eq hd.1 hd.2 hx.1 hx.2, evidence, if_neg Bool.false_ne_true]
      ring

theorem history_cons_self (us : List (UInt32 × Bool)) :
    history h ((h, consistent) :: us) = consistent :: history h us := by
  simp [history]

theorem history_cons_of_ne {h' : UInt32} (hne : h' ≠ h) (us : List (UInt32 × Bool)) :
    history h ((h', consistent) :: us) = history h us := by
  simp [history, hne]

theorem level_update_self (consistent : Bool)
    (hd : 0 ≤ t.decayFactor ∧ t.decayFactor ≤ 1) (ht : 0 ≤ t.level h ∧ t.level h ≤ 1) :
    (t.update h consistent).level h =
      t.level h * t.decayFactor + (1 - t.decayFactor) * evidence consistent := by
  rw [level, stored_update_self, Option.getD_some]
  exact decayed_eq_step hd ht

theorem level_update_of_ne (t : ReputationTable) (consistent : Bool) {h' : UInt32}
    (hne : h' ≠ h) :
    (t.update h' consistent).level h = t.level h := by
  rw [level, level, stored_update_of_ne hne.symm]

/-- A score in the unit interval stays there under every update. -/
theorem level_update_mem (hd : 0 ≤ t.decayFactor ∧ t.decayFactor ≤ 1)
    (ht : 0 ≤ t.level h ∧ t.level h ≤ 1) (h' : UInt32) (consistent : Bool) :
    0 ≤ (t.update h' consistent).level h ∧ (t.update h' consistent).level h ≤ 1 := by
  by_cases hne : h' = h
  · subst hne
    rw [level_update_self consistent hd ht]
    exact Ewma.step_mem_Icc hd ht (evidence_mem consistent)
  · rw [level_update_of_ne t consistent hne]
    exact ht

@[simp] theorem level_new (t₀ d : ℚ) (h : UInt32) : (new t₀ d).level h = 0 := by
  simp [level, stored, new]

theorem stored_update_eq_level : (t.update h consistent).stored h =
    some ((t.update h consistent).level h) := by
  rw [level, stored_update_self, Option.getD_some]

/-- **The stored values are moving averages.** -/
theorem stored_final (hd : 0 ≤ t.decayFactor ∧ t.decayFactor ≤ 1)
    (ht : 0 ≤ t.level h ∧ t.level h ≤ 1) :
    (Machine.final record t us).stored h =
      if history h us = [] then t.stored h
      else some (Ewma.ewma t.decayFactor (t.level h) ((history h us).map evidence)) := by
  induction us generalizing t with
  | nil => rfl
  | cons u us ih =>
      obtain ⟨h', consistent⟩ := u
      show (Machine.final record (t.update h' consistent) us).stored h = _
      rw [ih (t := t.update h' consistent) hd (level_update_mem hd ht h' consistent)]
      by_cases hne : h' = h
      · subst hne
        rw [history_cons_self, if_neg (List.cons_ne_nil _ _), List.map_cons,
          Ewma.ewma_cons, ← level_update_self consistent hd ht, stored_update_eq_level]
        split_ifs with hempty
        · rw [hempty]
          rfl
        · rfl
      · rw [history_cons_of_ne hne, level_update_of_ne t consistent hne,
          stored_update_of_ne (Ne.symm hne)]
        rfl

theorem initialTrust_final :
    (Machine.final record t us).initialTrust = t.initialTrust :=
  Machine.final_of_events (I := fun t' : ReputationTable =>
    t'.initialTrust = t.initialTrust) rfl fun e he hpre => by
      have hpost : e.pre.update e.inp.1 e.inp.2 = e.post :=
        congrArg Prod.snd (Machine.step_of_mem_trace he)
      rw [← hpost, initialTrust_update, hpre]

/-- What `getTrustScore` returns after any run on a fresh table. -/
theorem getTrustScore_final {t₀ : ℚ} (hd : 0 ≤ d ∧ d ≤ 1) :
    (Machine.final record (new t₀ d) us).getTrustScore h =
      if history h us = [] then t₀
      else Ewma.ewma d 0 ((history h us).map evidence) := by
  have hstored : (Machine.final record (new t₀ d) us).stored h =
      if history h us = [] then (new t₀ d).stored h
      else some (Ewma.ewma d ((new t₀ d).level h) ((history h us).map evidence)) :=
    stored_final hd (by simp)
  rw [getTrustScore_eq, hstored, level_new, initialTrust_final]
  split_ifs <;> simp [stored, new]

/-- The score is the average from the initial trust exactly when there are no
events, or nothing of the start is left. -/
theorem getTrustScore_eq_averageTrust_iff {t₀ : ℚ} (hd : 0 ≤ d ∧ d ≤ 1) :
    (Machine.final record (new t₀ d) us).getTrustScore h =
        averageTrust t₀ d (history h us) ↔
      history h us = [] ∨ t₀ = 0 ∨ d = 0 := by
  rw [getTrustScore_final hd, averageTrust, ← Ewma.ewma_eq_weightedAverage]
  split_ifs with hempty
  · simp [hempty]
  · have hsub := Ewma.ewma_sub_ewma (d := d) (x := t₀) (y := 0)
      ((history h us).map evidence)
    rw [eq_comm, ← sub_eq_zero, hsub, sub_zero, mul_eq_zero, pow_eq_zero_iff']
    simp [hempty]

/-! ## Which events move the trust the wrong way -/

theorem le_decayed_true (hd : 0 ≤ d ∧ d ≤ 1) (hx : 0 ≤ x ∧ x ≤ 1) :
    x ≤ decayed d x true := by
  have hpos : 0 ≤ (1 - d) * (1 - x) := mul_nonneg (by linarith) (by linarith)
  rw [decayed_true_eq hd.1 hd.2 hx.1 hx.2]
  linarith

/-- Only a first, consistent event can go wrong: it sets the trust to `1 - d`. -/
theorem follows_update_iff (hd : 0 ≤ t.decayFactor ∧ t.decayFactor ≤ 1)
    (hinit : 0 ≤ t.initialTrust) (ht : 0 ≤ t.level h ∧ t.level h ≤ 1) :
    (if consistent then t.getTrustScore h ≤ (t.update h consistent).getTrustScore h
      else (t.update h consistent).getTrustScore h ≤ t.getTrustScore h) ↔
    (t.stored h = none → consistent = true → t.initialTrust ≤ 1 - t.decayFactor) := by
  rw [getTrustScore_of_stored stored_update_self, getTrustScore_eq]
  cases hs : t.stored h with
  | some x =>
      rw [level, hs, Option.getD_some] at ht
      cases consistent with
      | true => simpa using le_decayed_true hd ht
      | false => simpa using decayed_false_le hd.1 hd.2 ht.1 ht.2
  | none =>
      have hzero : (0 : ℚ) ≤ 0 ∧ (0 : ℚ) ≤ 1 := by norm_num
      cases consistent with
      | true => simp [decayed_eq_step hd hzero, evidence]
      | false => simpa [decayed_eq_step hd hzero, evidence] using hinit

/-- The trust follows the events of a run unless the first event of a new
neighbour is consistent and the initial trust above `1 - d`. -/
theorem followsEvents_iff (hd : 0 ≤ t.decayFactor ∧ t.decayFactor ≤ 1)
    (hinit : 0 ≤ t.initialTrust) (ht : 0 ≤ t.level h ∧ t.level h ≤ 1) :
    FollowsEvents h (Machine.trace record t us) ↔
      (t.stored h = none → (history h us).head? = some true →
        t.initialTrust ≤ 1 - t.decayFactor) := by
  induction us generalizing t with
  | nil => simp [FollowsEvents, history]
  | cons u us ih =>
      obtain ⟨h', consistent⟩ := u
      rw [FollowsEvents, Machine.trace, List.forall_mem_cons]
      show _ ∧ FollowsEvents h (Machine.trace record (t.update h' consistent) us) ↔ _
      rw [ih (t := t.update h' consistent) hd hinit (level_update_mem hd ht h' consistent)]
      by_cases hne : h' = h
      · subst hne
        rw [history_cons_self, stored_update_self]
        simpa [record] using follows_update_iff hd hinit ht
      · rw [history_cons_of_ne hne, stored_update_of_ne (Ne.symm hne)]
        simp [hne]

/-- **When trust is the average from the initial trust.** For all parameters in
`[0, 1]`, every neighbour and every run on a fresh table, the score is that
average and follows the events exactly when the neighbour has no events, or the
initial trust or the decay factor is 0. Following the events alone fails only
for a first event that is consistent, with an initial trust above `1 - d`. -/
theorem averageTrust_iff (t₀ d : ℚ) (ht : 0 ≤ t₀ ∧ t₀ ≤ 1) (hd : 0 ≤ d ∧ d ≤ 1)
    (h : UInt32) (us : List (UInt32 × Bool)) :
    ((Machine.final record (new t₀ d) us).getTrustScore h =
        averageTrust t₀ d (history h us) ∧
      FollowsEvents h (Machine.trace record (new t₀ d) us) ↔
        history h us = [] ∨ t₀ = 0 ∨ d = 0) ∧
    (FollowsEvents h (Machine.trace record (new t₀ d) us) ↔
      ((history h us).head? = some true → t₀ ≤ 1 - d)) := by
  have hnone : (new t₀ d).stored h = none := by simp [stored, new]
  have hfollows : FollowsEvents h (Machine.trace record (new t₀ d) us) ↔
      ((new t₀ d).stored h = none → (history h us).head? = some true → t₀ ≤ 1 - d) :=
    followsEvents_iff hd ht.1 (by simp)
  simp only [hnone, true_implies] at hfollows
  refine ⟨?_, hfollows⟩
  rw [getTrustScore_eq_averageTrust_iff hd, hfollows, and_iff_left_iff_imp]
  rintro (hempty | hzero | hzero) hfirst
  · rw [hempty] at hfirst
    cases hfirst
  · linarith
  · linarith

theorem averageTrust_iff_sample :
    (Machine.final record (new 0 (9 / 10)) [(7, true), (8, false), (7, true)]
      ).getTrustScore 7 = averageTrust 0 (9 / 10) [true, true] :=
  ((averageTrust_iff 0 (9 / 10) (by norm_num) (by norm_num) 7
    [(7, true), (8, false), (7, true)]).1.mpr (Or.inr (Or.inl rfl))).1

/-- **A good first event lowers the trust.** With the default parameters it
goes from 1/2 to 1/10. -/
theorem first_event_lowers_trust :
    ¬ ∀ t₀ d : ℚ, 0 ≤ t₀ ∧ t₀ ≤ 1 → 0 ≤ d ∧ d ≤ 1 →
      ∀ (h : UInt32) (us : List (UInt32 × Bool)),
        (Machine.final record (new t₀ d) us).getTrustScore h =
            averageTrust t₀ d (history h us) ∧
          FollowsEvents h (Machine.trace record (new t₀ d) us) := by
  intro hclaim
  have hfollows := (hclaim (1 / 2) (9 / 10) (by norm_num) (by norm_num) 7
    [(7, true)]).2 _ List.mem_cons_self rfl
  have hbefore : (new (1 / 2) (9 / 10)).getTrustScore 7 = 1 / 2 := by decide +kernel
  have hafter : ((new (1 / 2) (9 / 10)).update 7 true).getTrustScore 7 = 1 / 10 := by
    decide +kernel
  simp only [if_true, record, hbefore, hafter] at hfollows
  norm_num at hfollows

end ReputationTable
end CaccSecure
