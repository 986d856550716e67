import CaccSecure.TrustAverage

/-!
# Order laws of the trust score

Consistent events never count against a neighbour, recent events count more
than old ones, and the last `k` events of one kind fix the score up to `d ^ k`.
-/

namespace CaccSecure
namespace ReputationTable

/-- The score of an update before the clamp. -/
def unclamped (decayFactor score : ℚ) (consistent : Bool) : ℚ :=
  if consistent then score * decayFactor + (1 - decayFactor) * 1
  else score * decayFactor

theorem decayed_eq_clamp (d x : ℚ) (consistent : Bool) :
    decayed d x consistent = max 0 (min 1 (unclamped d x consistent)) := rfl

/-- What `getTrustScore` returns after updates of a fresh table. -/
def trustAfter (initialTrust d : ℚ) (h : UInt32) (us : List (UInt32 × Bool)) : ℚ :=
  (Machine.final record (new initialTrust d) us).getTrustScore h

variable {t₀ d x : ℚ} {h : UInt32} {consistent : Bool} {us vs : List (UInt32 × Bool)}

theorem unclamped_eq_step : unclamped d x consistent =
    x * d + (1 - d) * evidence consistent := by
  cases consistent <;> simp [unclamped, evidence]

/-- From the unit interval, the clamp changes nothing. -/
theorem decayed_eq_unclamped (hd : 0 ≤ d ∧ d ≤ 1) (hx : 0 ≤ x ∧ x ≤ 1) :
    decayed d x consistent = unclamped d x consistent := by
  have hunit := Ewma.step_mem_Icc hd hx (evidence_mem consistent)
  rw [← unclamped_eq_step] at hunit
  rw [decayed_eq_clamp, min_eq_right hunit.2, max_eq_right hunit.1]

theorem history_append : history h (us ++ vs) = history h us ++ history h vs := by
  simp [history]

theorem history_append_cons_self : history h (us ++ (h, consistent) :: vs) =
    history h us ++ consistent :: history h vs := by
  rw [history_append, history_cons_self]

theorem evidence_le_true (consistent : Bool) : evidence consistent ≤ evidence true := by
  cases consistent <;> norm_num [evidence]

theorem map_evidence_mem (events : List Bool) :
    ∀ b ∈ events.map evidence, 0 ≤ b ∧ b ≤ 1 := by
  intro b hb
  obtain ⟨consistent, _, rfl⟩ := List.mem_map.mp hb
  exact evidence_mem consistent

/-- Once a neighbour has events, its score is their average from 0. -/
theorem trustAfter_eq_ewma (hd : 0 ≤ d ∧ d ≤ 1) (hne : history h us ≠ []) :
    trustAfter t₀ d h us = Ewma.ewma d 0 ((history h us).map evidence) := by
  rw [trustAfter, getTrustScore_final hd, if_neg hne]

/-! ## The clamp -/

/-- The values that updates read stay in the unit interval. -/
theorem levels_mem_of_mem_trace (hd : 0 ≤ d ∧ d ≤ 1)
    {e : Machine.Event ReputationTable (UInt32 × Bool) Unit}
    (he : e ∈ Machine.trace record (new t₀ d) us) :
    e.pre.decayFactor = d ∧ ∀ h, 0 ≤ e.pre.level h ∧ e.pre.level h ≤ 1 := by
  refine Machine.pre_of_mem_trace (I := fun t : ReputationTable =>
    t.decayFactor = d ∧ ∀ h, 0 ≤ t.level h ∧ t.level h ≤ 1) ?_ ?_ he
  · exact ⟨rfl, fun h => by simp⟩
  · rintro t ⟨h', consistent⟩ ⟨hfactor, hlevels⟩
    rw [← hfactor] at hd
    exact ⟨hfactor, fun h => level_update_mem hd (hlevels h) h' consistent⟩

/-- An update stores the score it computes before the clamp. -/
theorem stored_post_of_mem_trace (hd : 0 ≤ d ∧ d ≤ 1)
    {e : Machine.Event ReputationTable (UInt32 × Bool) Unit}
    (he : e ∈ Machine.trace record (new t₀ d) us) :
    let score := unclamped d (e.pre.level e.inp.1) e.inp.2
    0 ≤ score ∧ score ≤ 1 ∧ e.post.stored e.inp.1 = some score := by
  obtain ⟨hfactor, hlevels⟩ := levels_mem_of_mem_trace hd he
  have hpost : e.pre.update e.inp.1 e.inp.2 = e.post :=
    congrArg Prod.snd (Machine.step_of_mem_trace he)
  have hlevel := hlevels e.inp.1
  have hunit := Ewma.step_mem_Icc hd hlevel (evidence_mem e.inp.2)
  rw [← unclamped_eq_step] at hunit
  refine ⟨hunit.1, hunit.2, ?_⟩
  rw [← hpost, stored_update_self, hfactor, ← level, decayed_eq_unclamped hd hlevel]

/-! ## Changing a history -/

/-- Turning an event into a consistent one does not lower the trust. -/
theorem trustAfter_flip_le (hd : 0 ≤ d ∧ d ≤ 1) (t₀ : ℚ) (h : UInt32)
    (us vs : List (UInt32 × Bool)) :
    trustAfter t₀ d h (us ++ (h, false) :: vs) ≤
      trustAfter t₀ d h (us ++ (h, true) :: vs) := by
  rw [trustAfter_eq_ewma hd (by simp [history_append_cons_self]),
    trustAfter_eq_ewma hd (by simp [history_append_cons_self]),
    history_append_cons_self, history_append_cons_self]
  simp only [List.map_append, List.map_cons]
  exact Ewma.ewma_append_cons_le hd (evidence_le_true false) _ _

/-- Moving a consistent event past other updates does not lower the trust. -/
theorem trustAfter_move_later_le (hd : 0 ≤ d ∧ d ≤ 1) (t₀ : ℚ) (h : UInt32)
    (us vs ws : List (UInt32 × Bool)) :
    trustAfter t₀ d h (us ++ (h, true) :: (vs ++ ws)) ≤
      trustAfter t₀ d h (us ++ (vs ++ (h, true) :: ws)) := by
  have hlater : history h (us ++ (vs ++ (h, true) :: ws)) =
      history h us ++ (history h vs ++ true :: history h ws) := by
    rw [history_append, history_append_cons_self]
  rw [trustAfter_eq_ewma hd (by simp [history_append_cons_self]),
    trustAfter_eq_ewma hd (by simp [hlater]), hlater, history_append_cons_self,
    history_append]
  simp only [List.map_append, List.map_cons]
  rw [Ewma.ewma_append, Ewma.ewma_append (history h us |>.map evidence)]
  apply Ewma.ewma_move_later_le hd.1
  intro b hb
  obtain ⟨consistent, _, rfl⟩ := List.mem_map.mp hb
  exact evidence_le_true consistent

/-! ## The last events -/

/-- After `k` last events of one kind the score is within `d ^ k` of it. -/
theorem trustAfter_of_last (hd : 0 ≤ d ∧ d ≤ 1) (t₀ : ℚ) (us : List (UInt32 × Bool))
    {k : ℕ} (hk : 1 ≤ k) (hlast : history h vs = List.replicate k consistent) :
    ∃ y, 0 ≤ y ∧ y ≤ 1 ∧ trustAfter t₀ d h (us ++ vs) =
      evidence consistent + (y - evidence consistent) * d ^ k := by
  have hne : history h (us ++ vs) ≠ [] := by
    rw [history_append, hlast]
    simp
    omega
  have hstart := Ewma.ewma_mem_Icc hd (x := 0) (by norm_num)
    (map_evidence_mem (history h us))
  refine ⟨_, hstart.1, hstart.2, ?_⟩
  rw [trustAfter_eq_ewma hd hne, history_append, hlast, List.map_append,
    Ewma.ewma_append, List.map_replicate, Ewma.ewma_replicate]

theorem one_sub_pow_le_trustAfter (hd : 0 ≤ d ∧ d ≤ 1) (t₀ : ℚ)
    (us : List (UInt32 × Bool)) {k : ℕ} (hk : 1 ≤ k)
    (hlast : history h vs = List.replicate k true) :
    1 - d ^ k ≤ trustAfter t₀ d h (us ++ vs) := by
  obtain ⟨y, hy0, _, heq⟩ := trustAfter_of_last hd t₀ us hk hlast
  have hpos : 0 ≤ y * d ^ k := mul_nonneg hy0 (pow_nonneg hd.1 k)
  have hone : evidence true = 1 := rfl
  rw [heq, hone]
  linarith

theorem trustAfter_le_pow (hd : 0 ≤ d ∧ d ≤ 1) (t₀ : ℚ) (us : List (UInt32 × Bool))
    {k : ℕ} (hk : 1 ≤ k) (hlast : history h vs = List.replicate k false) :
    trustAfter t₀ d h (us ++ vs) ≤ d ^ k := by
  obtain ⟨y, _, hy1, heq⟩ := trustAfter_of_last hd t₀ us hk hlast
  have hle : y * d ^ k ≤ d ^ k := mul_le_of_le_one_left (pow_nonneg hd.1 k) hy1
  have hzero : evidence false = 0 := rfl
  rw [heq, hzero]
  linarith

/-- **Order laws of the trust score.** For every initial trust, every decay factor
in `[0, 1]`, every neighbour and every history: no update needs its clamp, a consistent event in
place of an inconsistent one does not lower the trust, neither does a consistent
event that comes later, and `k` last events of one kind leave at most `d ^ k` of
what came before. -/
theorem trust_order_laws (t₀ d : ℚ) (hd : 0 ≤ d ∧ d ≤ 1) (h : UInt32) :
    (∀ us, ∀ e ∈ Machine.trace record (new t₀ d) us,
      let score := unclamped d (e.pre.level e.inp.1) e.inp.2
      0 ≤ score ∧ score ≤ 1 ∧ e.post.stored e.inp.1 = some score) ∧
    (∀ us vs, trustAfter t₀ d h (us ++ (h, false) :: vs) ≤
      trustAfter t₀ d h (us ++ (h, true) :: vs)) ∧
    (∀ us vs ws, trustAfter t₀ d h (us ++ (h, true) :: (vs ++ ws)) ≤
      trustAfter t₀ d h (us ++ (vs ++ (h, true) :: ws))) ∧
    ∀ us vs (k : ℕ), 1 ≤ k →
      (history h vs = List.replicate k true → 1 - d ^ k ≤ trustAfter t₀ d h (us ++ vs)) ∧
      (history h vs = List.replicate k false → trustAfter t₀ d h (us ++ vs) ≤ d ^ k) := by
  refine ⟨fun us e he => stored_post_of_mem_trace hd he, trustAfter_flip_le hd t₀ h,
    trustAfter_move_later_le hd t₀ h, fun us vs k hk => ⟨?_, ?_⟩⟩
  · exact one_sub_pow_le_trustAfter hd t₀ us hk
  · exact trustAfter_le_pow hd t₀ us hk

/-- Two good events between events of another neighbour, after a bad one. -/
theorem trust_order_laws_sample :
    1 - (9 / 10 : ℚ) ^ 2 ≤
      trustAfter (1 / 2) (9 / 10) 7 ([(7, false)] ++ [(7, true), (8, false), (7, true)]) :=
  ((trust_order_laws (1 / 2) (9 / 10) (by norm_num) 7).2.2.2
    [(7, false)] [(7, true), (8, false), (7, true)] 2 (by decide)).1 rfl

end ReputationTable
end CaccSecure
