import CaccSecure.RateLimiter
import Mathlib.Tactic.NormNum

/-!
# The rate limit in simulated time

The limiter purges by `nowMs`, which reads the wall clock while simulated time
is zero. For a schedule of clock readings, the limit holds in every closed
window of simulated time, for every run on the schedule, exactly when no two
readings within one window are more than a window apart for `nowMs`.
-/

namespace CaccSecure
namespace RateLimiter

variable {Name : Type} [DecidableEq Name]

/-- The arguments of `checkAndUpdate`, with the reading of the clocks. -/
structure Call (Name : Type) where
  clock : Clock
  contentName : Name
  ph : UInt8

def call (r : RateLimiter Name) (x : Call Name) : RateVerdict × RateLimiter Name :=
  r.checkAndUpdate x.clock x.contentName x.ph

/-- The length of the window in nanoseconds of simulated time. -/
def windowNs (windowSeconds : UInt32) : ℤ := windowSeconds.toNat * 1000 * 1000000

/-- The closed window of simulated time that starts at `start`. -/
def InWindow (windowSeconds : UInt32) (start : ℤ) (c : Clock) : Prop :=
  start ≤ c.simNs.toInt ∧ c.simNs.toInt ≤ start + windowNs windowSeconds

instance (windowSeconds : UInt32) (start : ℤ) :
    DecidablePred (InWindow windowSeconds start) :=
  fun _ => inferInstanceAs (Decidable (_ ∧ _))

/-- An unclamped call for `n` in the window. -/
def increments (windowSeconds : UInt32) (n : Name) (start : ℤ)
    (e : Machine.Event (RateLimiter Name) (Call Name) RateVerdict) : Bool :=
  e.inp.contentName = n && (!e.out.clamped && InWindow windowSeconds start e.inp.clock)

/-- The limit holds for every limiter with this window and every run on the
schedule: at most `limit` unclamped calls for a name in a closed window. -/
def HoldsLimit (Name : Type) [DecidableEq Name] (windowSeconds : UInt32)
    (schedule : List Clock) : Prop :=
  ∀ (limit : UInt32) (xs : List (Call Name)), (xs.map Call.clock).Sublist schedule →
    ∀ n start,
      (Machine.trace call (new limit windowSeconds : RateLimiter Name) xs).countP
        (increments windowSeconds n start) ≤ limit.toNat

/-- The purge at the later reading keeps a stamp of the earlier one as long as
both lie in one window of simulated time. -/
def Consistent (windowSeconds : UInt32) (x z : Clock) : Prop :=
  z.simNs.toInt ≤ x.simNs.toInt + windowNs windowSeconds →
    older (windowSeconds.toUInt64 * 1000) (nowMs z) (nowMs x) = false

instance (windowSeconds : UInt32) (x z : Clock) :
    Decidable (Consistent windowSeconds x z) :=
  inferInstanceAs (Decidable (_ → _))

variable {windowSeconds : UInt32} {n : Name} {start : ℤ} {schedule : List Clock}
  {x z : Clock} {r : RateLimiter Name}

/-- On the deque of its name, a call is an input of a sliding-window limiter. -/
theorem offer_call {x : Call Name} : SlidingWindow.offer (older r.windowMs)
    r.maxIncrPerWindow.toNat nowMs (r.window x.contentName).timestamps x.clock =
      (!(r.call x).1.clamped, ((r.call x).2.window x.contentName).timestamps) := by
  rw [call, window_checkAndUpdate_self]
  exact checkWindow_offer (r.length_window_le _)

theorem window_call_of_ne {x : Call Name} (hn : n ≠ x.contentName) :
    (r.call x).2.window n = r.window n :=
  window_checkAndUpdate_of_ne hn

/-- The calls for one name are a run of a sliding-window limiter on its deque;
the other calls do not touch it. -/
theorem countP_trace_call (inside : Clock → Bool) (r : RateLimiter Name)
    (xs : List (Call Name)) :
    (Machine.trace call r xs).countP
        (fun e => e.inp.contentName = n && (!e.out.clamped && inside e.inp.clock)) =
      (Machine.trace (SlidingWindow.offer (older r.windowMs)
          r.maxIncrPerWindow.toNat nowMs) (r.window n).timestamps
        ((xs.filter fun x => x.contentName = n).map Call.clock)).countP
        fun e => e.out && inside e.inp := by
  induction xs generalizing r with
  | nil => rfl
  | cons x xs ih =>
      have hrest := ih (call r x).2
      have hmax : (call r x).2.maxIncrPerWindow = r.maxIncrPerWindow :=
        maxIncrPerWindow_checkAndUpdate
      have hms : (call r x).2.windowMs = r.windowMs := windowMs_checkAndUpdate
      rw [hmax, hms] at hrest
      by_cases hn : x.contentName = n
      · subst hn
        simp only [Machine.trace, List.countP_cons, hrest, decide_true,
          List.filter_cons_of_pos, List.map_cons, offer_call, Bool.true_and]
      · rw [window_call_of_ne (Ne.symm hn)] at hrest
        simpa [Machine.trace, hn] using hrest

theorem countP_increments (r : RateLimiter Name) (xs : List (Call Name)) :
    (Machine.trace call r xs).countP (increments windowSeconds n start) =
      (Machine.trace (SlidingWindow.offer (older r.windowMs)
          r.maxIncrPerWindow.toNat nowMs) (r.window n).timestamps
        ((xs.filter fun x => x.contentName = n).map Call.clock)).countP
        fun e => e.out && InWindow windowSeconds start e.inp :=
  countP_trace_call (fun c => InWindow windowSeconds start c) r xs

/-- A consistent schedule keeps the limit. -/
theorem holdsLimit_of_consistent
    (hmono : schedule.Pairwise fun x z => x.simNs.toInt ≤ z.simNs.toInt)
    (hcons : schedule.Pairwise (Consistent windowSeconds)) :
    HoldsLimit Name windowSeconds schedule := by
  intro limit xs hsub n start
  have hsub' : ((xs.filter fun x => x.contentName = n).map Call.clock).Sublist schedule :=
    (List.filter_sublist.map Call.clock).trans hsub
  rw [countP_increments, window_new]
  -- the stretch before the end of the window
  let before : Clock → Prop :=
    fun c => c.simNs.toInt ≤ start + windowNs windowSeconds
  have hin : ∀ c, InWindow windowSeconds start c → before c := fun _ h => h.2
  apply SlidingWindow.countP_admitted_le (Nat.zero_le _) hin
  · exact (hmono.sublist hsub').imp fun hle hz => hle.trans hz
  · refine (hcons.sublist hsub').imp fun hxz hx hz => hxz ?_
    exact hz.trans (Int.add_le_add_right hx.1 _)

/-- Two inconsistent readings break a limit of 1: the second call purges the
stamp of the first. -/
theorem not_holdsLimit_pair [Inhabited Name] (hle : x.simNs.toInt ≤ z.simNs.toInt)
    (hincons : ¬ Consistent windowSeconds x z) :
    ¬ HoldsLimit Name windowSeconds [x, z] := by
  intro hlimit
  obtain ⟨hnear, hold⟩ := Classical.not_imp.mp hincons
  rw [Bool.not_eq_false] at hold
  have hwindow : 0 ≤ windowNs windowSeconds := by
    unfold windowNs
    positivity
  have hx : InWindow windowSeconds x.simNs.toInt x :=
    ⟨Int.le_refl _, Int.le_add_of_nonneg_right hwindow⟩
  have hz : InWindow windowSeconds x.simNs.toInt z := ⟨hle, hnear⟩
  have hbound := hlimit 1 [⟨x, default, 0⟩, ⟨z, default, 0⟩] (List.Sublist.refl _)
    default x.simNs.toInt
  rw [countP_increments, window_new] at hbound
  have hone : (1 : UInt32).toNat = 1 := rfl
  simp [Machine.trace, SlidingWindow.offer, new, hold, hx, hz, hone] at hbound

/-! ## Positive simulated time -/

/-- After time zero `nowMs` is simulated time, rounded down to milliseconds. -/
theorem toNat_nowMs {c : Clock} (hpos : 0 < c.simNs.toInt) :
    ((nowMs c).toNat : ℤ) = c.simNs.toInt / 1000000 := by
  have hgt : c.simNs > 0 := Int64.lt_iff_toInt_lt.mpr hpos
  have hmillion : (1000000 : Int64).toInt = 1000000 := by decide
  have hdiv : (c.simNs / 1000000).toInt = c.simNs.toInt / 1000000 := by
    rw [Int64.toInt_div_of_ne_right _ _ (by decide), hmillion]
    exact Int.tdiv_eq_ediv_of_nonneg hpos.le
  have hnonneg : 0 ≤ c.simNs.toInt / 1000000 := Int.ediv_nonneg hpos.le (by decide)
  have hle : (0 : Int64) ≤ c.simNs / 1000000 := by
    rw [Int64.le_iff_toInt_le, hdiv]
    exact hnonneg
  rw [nowMs, if_pos hgt, Int64.toNat_toUInt64_of_le hle, Int64.toNatClampNeg, hdiv,
    Int.toNat_of_nonneg hnonneg]

theorem toNat_windowMs (windowSeconds : UInt32) : (windowSeconds.toUInt64 * 1000).toNat =
    windowSeconds.toNat * 1000 := by
  have hlt := windowSeconds.toNat_lt
  have hthousand : (1000 : UInt64).toNat = 1000 := rfl
  rw [UInt64.toNat_mul, UInt32.toNat_toUInt64, hthousand]
  omega

theorem consistent_of_pos (hpos : 0 < x.simNs.toInt)
    (hle : x.simNs.toInt ≤ z.simNs.toInt) : Consistent windowSeconds x z := by
  intro hnear
  have hx := toNat_nowMs hpos
  have hz := toNat_nowMs (hpos.trans_le hle)
  have hms := toNat_windowMs windowSeconds
  have horder : nowMs x ≤ nowMs z := by
    rw [UInt64.le_iff_toNat_le]
    omega
  have hsub := UInt64.toNat_sub_of_le _ _ horder
  rw [older, decide_eq_false_iff_not, gt_iff_lt, UInt64.lt_iff_toNat_lt, hsub]
  unfold windowNs at hnear
  omega

/-- **When the limit holds in simulated time.** On a schedule of nondecreasing
simulated time it holds for every run exactly when the readings are consistent,
in particular when no call is made at time zero. -/
theorem holdsLimit_iff [Inhabited Name] (windowSeconds : UInt32)
    (schedule : List Clock)
    (hmono : schedule.Pairwise fun x z => x.simNs.toInt ≤ z.simNs.toInt) :
    (HoldsLimit Name windowSeconds schedule ↔
      schedule.Pairwise (Consistent windowSeconds)) ∧
    ((∀ c ∈ schedule, 0 < c.simNs.toInt) → HoldsLimit Name windowSeconds schedule) := by
  constructor
  · constructor
    · intro hlimit
      rw [List.pairwise_iff_forall_sublist]
      intro x z hsub
      by_contra hincons
      have hle := List.pairwise_iff_forall_sublist.mp hmono hsub
      exact not_holdsLimit_pair hle hincons
        fun limit xs hxs => hlimit limit xs (hxs.trans hsub)
    · exact holdsLimit_of_consistent hmono
  · intro hpos
    apply holdsLimit_of_consistent hmono
    rw [List.pairwise_iff_forall_sublist] at hmono ⊢
    intro x z hsub
    exact consistent_of_pos (hpos x (hsub.subset (by simp))) (hmono hsub)

theorem holdsLimit_iff_sample :
    HoldsLimit ℕ 60 [⟨1000000, 5⟩, ⟨2000000, 9⟩] :=
  (holdsLimit_iff 60 [⟨1000000, 5⟩, ⟨2000000, 9⟩] (by decide)).2 (by decide)

/-- **The clocks mix.** At simulated time 0 the stamp is the wall clock's, 5000
seconds; a millisecond of simulated time later the difference wraps around and
the stamp is purged, so that a limit of 1 admits both calls. -/
theorem rate_limit_exceeded :
    ¬ ∀ (limit windowSeconds : UInt32) (xs : List (Call ℕ)),
      (∀ x ∈ xs, 0 ≤ x.clock.simNs.toInt ∧ 0 ≤ x.clock.steadyNs.toInt) →
      (xs.Pairwise fun x z => x.clock.simNs.toInt ≤ z.clock.simNs.toInt ∧
        x.clock.steadyNs.toInt ≤ z.clock.steadyNs.toInt) →
      ∀ n start,
        (Machine.trace call (new limit windowSeconds : RateLimiter ℕ) xs).countP
          (increments windowSeconds n start) ≤ limit.toNat := by
  intro hclaim
  have hbound := hclaim 1 60
    [⟨⟨0, 5000000000000⟩, 0, 1⟩, ⟨⟨1000000, 5000000000000⟩, 0, 2⟩]
    (by decide) (by decide) 0 0
  have htwo : (Machine.trace call (new 1 60 : RateLimiter ℕ)
      [⟨⟨0, 5000000000000⟩, 0, 1⟩, ⟨⟨1000000, 5000000000000⟩, 0, 2⟩]).countP
      (increments 60 0 0) = 2 := by
    decide +kernel
  rw [htwo] at hbound
  exact absurd hbound (by decide)

end RateLimiter
end CaccSecure
