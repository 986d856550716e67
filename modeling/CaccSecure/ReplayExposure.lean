import CaccSecure.SeqCacheHistory

/-!
# How long a SEQN stays rejected

The cache keeps only the last accepted SEQN of a name. As long as the name is
tracked, that SEQN is the end of the path of all acceptances since any earlier
one, so that the distance travelled on the path, modulo 256, decides whether
the earlier SEQN is accepted again.
-/

namespace CaccSecure
namespace SeqCache

variable {Name : Type} [DecidableEq Name]

/-- The SEQN that an event accepts for `n`. -/
def acceptedSeqn (n : Name) (e : Machine.Event (SeqCache Name) (Call Name) Bool) :
    Option UInt8 :=
  match e.inp with
  | .validateSequence m s => if m = n ∧ e.out then some s else none
  | .clear => none

/-- The sum of the circular forward distances of the acceptances for `n` in a
run, counted from the SEQN `s`. -/
def distanceSince (n : Name) (s : UInt8)
    (run : List (Machine.Event (SeqCache Name) (Call Name) Bool)) : ℕ :=
  Circular.travelled 256 s.toNat ((run.filterMap (acceptedSeqn n)).map UInt8.toNat)

variable {c : SeqCache Name} {n m : Name} {s last : UInt8}

/-- A call that does not forget `n` leaves the SEQN it accepted for `n`, if it
did, or the one that was there. -/
theorem lastSeqn_call (x : Call Name) (hlast : c.lastSeqn n = some last)
    (hkept : n ∈ (c.call x).2.names) :
    (c.call x).2.lastSeqn n =
      some ((acceptedSeqn n ⟨c, x, (c.call x).1, (c.call x).2⟩).getD last) := by
  cases x with
  | clear => simp [call] at hkept
  | validateSequence m s =>
      by_cases hm : m = n
      · subst hm
        cases hv : (c.validateSequence m s).1 with
        | true => simpa [call, acceptedSeqn, hv] using lastSeqn_self hv
        | false =>
            simpa [call, acceptedSeqn, hv, validateSequence_of_rejected hv] using hlast
      · rcases lastSeqn_of_ne (c := c) (s := s) (Ne.symm hm) with hsame | hnone
        · simpa [call, acceptedSeqn, hm, hsame] using hlast
        · exact absurd hkept (lastSeqn_eq_none_iff.mp hnone)

/-- While `n` is tracked, its SEQN is the last one that was accepted for it. -/
theorem lastSeqn_final {xs : List (Call Name)} (hlast : c.lastSeqn n = some s)
    (hkept : ∀ e ∈ Machine.trace call c xs, n ∈ e.post.names) :
    (Machine.final call c xs).lastSeqn n =
      some (((Machine.trace call c xs).filterMap (acceptedSeqn n)).getLastD s) := by
  induction xs generalizing c s with
  | nil => exact hlast
  | cons x xs ih =>
      have hhead := lastSeqn_call x hlast (hkept _ List.mem_cons_self)
      have hrest := ih hhead fun e he => hkept e (List.mem_cons_of_mem _ he)
      rw [Machine.final, hrest, Machine.trace, List.filterMap_cons]
      cases acceptedSeqn n ⟨c, x, (c.call x).1, (c.call x).2⟩ with
      | none => rfl
      | some s' => rw [List.getLastD_cons]; rfl

/-- **Replay exposure.** Take any run of a cache of any capacity in which `s` is
accepted for `n` and `n` stays tracked afterwards. Then `s` is accepted again
exactly when the acceptances since then have led into the far half of a lap, in
particular not within 127 steps. -/
theorem replay_exposure (K : ℕ) (before after : List (Call Name)) (n : Name)
    (s : UInt8) :
    let c₀ := Machine.final call (new K) before
    let c₁ := (c₀.validateSequence n s).2
    let c := Machine.final call c₁ after
    let T := distanceSince n s (Machine.trace call c₁ after)
    (c₀.validateSequence n s).1 = true →
      (∀ e ∈ Machine.trace call c₁ after, n ∈ e.post.names) →
      ((c.validateSequence n s).1 = true ↔ 128 ≤ T % 256) ∧
        (T ≤ 127 → (c.validateSequence n s).1 = false) := by
  intro c₀ c₁ c T hacc hkept
  have hlast := lastSeqn_final (lastSeqn_self hacc) hkept
  have hiff : (c.validateSequence n s).1 = true ↔ 128 ≤ T % 256 := by
    have hbytes : ∀ b ∈ ((Machine.trace call c₁ after).filterMap
        (acceptedSeqn n)).map UInt8.toNat, b < 2 * 128 := by
      intro b hb
      obtain ⟨u, -, rfl⟩ := List.mem_map.mp hb
      exact u.toNat_lt
    have hend := Circular.newer_end_iff s.toNat_lt hbytes
    rw [validateSequence_fst, hlast]
    rw [List.getLastD_map] at hend
    refine Iff.trans ⟨fun h => h _ rfl, ?_⟩ hend
    rintro hnew last heq
    rw [← Option.some.inj heq]
    exact hnew
  refine ⟨hiff, fun hT => ?_⟩
  rw [← Bool.not_eq_true, hiff]
  omega

/-- Half a lap later the SEQN is accepted again. -/
theorem replay_exposure_half_lap :
    let c₁ := ((new 2 : SeqCache ℕ).validateSequence 0 5).2
    ((Machine.final call c₁ [.validateSequence 1 7, .validateSequence 0 133]
      ).validateSequence 0 5).1 = true :=
  (replay_exposure 2 [] [.validateSequence 1 7, .validateSequence 0 133] 0 5
    (by decide +kernel) (by decide +kernel)).1.mpr (by decide +kernel)

end SeqCache
end CaccSecure
