import CaccSecure.RateWindow

/-!
# Histories of the rate limiter

What the limiter is for: a call is clamped when its window already holds the
allowed number of unclamped calls for its name. The deques of the source are
compared with the history of all unclamped calls, on runs whose clock readings
never go back. A `clear` starts a new history.
-/

namespace CaccSecure
namespace RateLimiter

variable {Name : Type} [DecidableEq Name]

/-- What a caller does to a limiter. -/
inductive Op (Name : Type) where
  | checkAndUpdate (x : Call Name)
  | clear

def perform (r : RateLimiter Name) : Op Name → Option RateVerdict × RateLimiter Name
  | .checkAndUpdate x => (some (r.call x).1, (r.call x).2)
  | .clear => (none, r.clear)

/-- The clock reading of a call, in milliseconds. -/
def reading (x : Call Name) : ℕ := (nowMs x.clock).toNat

/-- The clock readings of a run. -/
def readings (xs : List (Op Name)) : List ℕ :=
  xs.filterMap fun
    | .checkAndUpdate x => some (reading x)
    | .clear => none

/-- What is remembered of an unclamped call. -/
structure Unclamped (Name : Type) where
  contentName : Name
  time : UInt64
  ph : UInt8
deriving DecidableEq

/-- The unclamped call that an event is, if it is one. -/
def unclampedCall (e : Machine.Event (RateLimiter Name) (Op Name) (Option RateVerdict)) :
    Option (Unclamped Name) :=
  match e.inp, e.out with
  | .checkAndUpdate x, some v =>
      if v.clamped then none else some ⟨x.contentName, nowMs x.clock, x.ph⟩
  | _, _ => none

/-- All unclamped calls, newest first, after one more event of a run. -/
def unclampedCalls (B : List (Unclamped Name))
    (e : Machine.Event (RateLimiter Name) (Op Name) (Option RateVerdict)) :
    List (Unclamped Name) :=
  (unclampedCall e).toList ++ B

/-- The unclamped calls since the last `clear`, newest first. -/
def unclampedSinceClear (A : List (Unclamped Name))
    (e : Machine.Event (RateLimiter Name) (Op Name) (Option RateVerdict)) :
    List (Unclamped Name) :=
  match e.inp with
  | .checkAndUpdate _ => (unclampedCall e).toList ++ A
  | .clear => []

/-- The PH of the latest unclamped call for a name, 0 if there is none. -/
def latestPh (n : Name) (A : List (Unclamped Name)) : UInt8 :=
  ((A.find? fun u => u.contentName = n).map Unclamped.ph).getD 0

/-- The number of the calls for a name whose time stamps lie in the closed
window of `W` milliseconds that ends at `t`. -/
def countInWindow (n : Name) (W t : ℕ) (A : List (Unclamped Name)) : ℕ :=
  A.countP fun u => u.contentName = n ∧ u.time.toNat ≤ t ∧ t ≤ u.time.toNat + W

/-- The time stamps of the calls for a name. -/
def timesOf (n : Name) (A : List (Unclamped Name)) : List UInt64 :=
  (A.filter fun u => u.contentName = n).map Unclamped.time

/-- The limiter holds what the history `A` of a run up to the time `now` says. -/
structure Remembers (limit windowSeconds : UInt32) (now : ℕ) (r : RateLimiter Name)
    (A : List (Unclamped Name)) : Prop where
  limit_eq : r.maxIncrPerWindow = limit
  windowMs_eq : r.windowMs = windowSeconds.toUInt64 * 1000
  tracks : ∀ n, SlidingWindow.Tracks (older r.windowMs) UInt64.toNat now
    (r.window n).timestamps (timesOf n A)
  lastPh : ∀ n, (r.window n).lastPh = latestPh n A

variable {limit windowSeconds : UInt32} {now : ℕ} {r : RateLimiter Name}
  {A B : List (Unclamped Name)} {n : Name} {x : Call Name}

/-! ## Time stamps expire in order -/

theorem older_iff {windowMs r t : UInt64} (hle : t.toNat ≤ r.toNat) :
    older windowMs r t = true ↔ t.toNat + windowMs.toNat < r.toNat := by
  have hsub := UInt64.toNat_sub_of_le r t (UInt64.le_iff_toNat_le.mpr hle)
  rw [older, decide_eq_true_iff, gt_iff_lt, UInt64.lt_iff_toNat_lt, hsub]
  omega

theorem ageing_older (windowMs : UInt64) :
    SlidingWindow.Ageing (older windowMs) UInt64.toNat where
  later t r r' hr hr' hold := by
    rw [older_iff hr] at hold
    rw [older_iff (hr.trans hr')]
    omega
  older t t' r ht hr hold := by
    rw [older_iff hr] at hold
    rw [older_iff (ht.trans hr)]
    omega

/-- The live time stamps of a name are its calls in the window. -/
theorem live_timesOf {windowMs t : UInt64} (hle : ∀ u ∈ timesOf n A, u.toNat ≤ t.toNat) :
    SlidingWindow.live (older windowMs) t (timesOf n A) =
      countInWindow n windowMs.toNat t.toNat A := by
  rw [SlidingWindow.live, timesOf, List.countP_map, List.countP_filter, countInWindow]
  apply List.countP_congr
  intro u hu
  by_cases hn : u.contentName = n
  · have hmem : u.time ∈ timesOf n A :=
      List.mem_map_of_mem (List.mem_filter.mpr ⟨hu, by simpa using hn⟩)
    have hiff : older windowMs t u.time = true ↔
        u.time.toNat + windowMs.toNat < t.toNat := older_iff (hle _ hmem)
    simp [hn, ← Bool.not_eq_true, hiff, hle _ hmem]
  · simp [hn]

/-! ## One call -/

theorem remembers_new (limit windowSeconds : UInt32) (now : ℕ) :
    Remembers limit windowSeconds now (new limit windowSeconds : RateLimiter Name) [] where
  limit_eq := rfl
  windowMs_eq := rfl
  tracks n := by
    rw [window_new]
    exact SlidingWindow.tracks_nil
  lastPh n := by
    rw [window_new]
    rfl

@[simp] theorem window_clear (r : RateLimiter Name) (n : Name) :
    r.clear.window n = ⟨[], 0⟩ := by
  simp [window, clear]

theorem Remembers.clear (h : Remembers limit windowSeconds now r A) :
    Remembers limit windowSeconds now r.clear [] where
  limit_eq := h.limit_eq
  windowMs_eq := h.windowMs_eq
  tracks n := by
    rw [window_clear]
    exact SlidingWindow.tracks_nil
  lastPh n := by
    rw [window_clear]
    rfl

/-- **Verdict.** A call is clamped exactly when its window is full. -/
theorem Remembers.clamped_iff (h : Remembers limit windowSeconds now r A)
    (hle : now ≤ reading x) : (r.call x).1.clamped = true ↔
      limit.toNat ≤
        countInWindow x.contentName (windowSeconds.toNat * 1000) (reading x) A := by
  have htracks := h.tracks x.contentName
  have hadmits : (SlidingWindow.offer (older r.windowMs) r.maxIncrPerWindow.toNat nowMs
      (r.window x.contentName).timestamps x.clock).1 = true ↔
        SlidingWindow.live (older r.windowMs) (nowMs x.clock) (timesOf x.contentName A) <
          r.maxIncrPerWindow.toNat := htracks.admits_iff (ageing_older _) hle
  rw [offer_call, live_timesOf fun u hu => (htracks.admitted_le u hu).trans hle, h.limit_eq,
    h.windowMs_eq, toNat_windowMs, Bool.not_eq_true', ← Bool.not_eq_true] at hadmits
  exact not_iff_not.mp (hadmits.trans Nat.not_le.symm)

theorem effectivePh_call : (r.call x).1.effectivePh =
    if (r.call x).1.clamped then (r.window x.contentName).lastPh else x.ph := by
  rw [call, checkAndUpdate_fst]
  simp only [checkWindow]
  split <;> rfl

/-- The window of the name after a call. -/
theorem window_call_self : (r.call x).2.window x.contentName =
    ⟨if (r.call x).1.clamped then
        purge r.windowMs (nowMs x.clock) (r.window x.contentName).timestamps
      else purge r.windowMs (nowMs x.clock) (r.window x.contentName).timestamps ++
        [nowMs x.clock],
      (r.call x).1.effectivePh⟩ := by
  rw [call, window_checkAndUpdate_self, checkAndUpdate_fst]
  simp only [checkWindow]
  split <;> rfl

/-- The history after a call. -/
def recorded (r : RateLimiter Name) (x : Call Name) (A : List (Unclamped Name)) :
    List (Unclamped Name) :=
  if (r.call x).1.clamped then A else ⟨x.contentName, nowMs x.clock, x.ph⟩ :: A

theorem unclampedCall_check {post : RateLimiter Name} :
    (unclampedCall ⟨r, .checkAndUpdate x, some (r.call x).1, post⟩).toList ++ A =
      recorded r x A := by
  simp only [unclampedCall, recorded]
  split_ifs <;> rfl

theorem unclampedSinceClear_check {post : RateLimiter Name} :
    unclampedSinceClear A ⟨r, .checkAndUpdate x, some (r.call x).1, post⟩ =
      recorded r x A := unclampedCall_check

theorem timesOf_recorded_self : timesOf x.contentName (recorded r x A) =
    if (r.call x).1.clamped then timesOf x.contentName A
    else nowMs x.clock :: timesOf x.contentName A := by
  rw [recorded]
  split_ifs
  · rfl
  · simp [timesOf]

theorem timesOf_recorded_of_ne (hn : n ≠ x.contentName) :
    timesOf n (recorded r x A) = timesOf n A := by
  rw [recorded]
  split_ifs
  · rfl
  · simp [timesOf, Ne.symm hn]

theorem latestPh_recorded_of_ne (hn : n ≠ x.contentName) :
    latestPh n (recorded r x A) = latestPh n A := by
  rw [recorded]
  split_ifs
  · rfl
  · simp [latestPh, Ne.symm hn]

/-- **One call keeps the history.** -/
theorem Remembers.call (h : Remembers limit windowSeconds now r A)
    (hle : now ≤ reading x) :
    Remembers limit windowSeconds (reading x) (r.call x).2 (recorded r x A) where
  limit_eq := h.limit_eq
  windowMs_eq := h.windowMs_eq
  tracks n := by
    show SlidingWindow.Tracks (older r.windowMs) UInt64.toNat (reading x) _ _
    by_cases hn : n = x.contentName
    · subst hn
      have hoffer : SlidingWindow.Tracks (older r.windowMs) UInt64.toNat (reading x)
          (SlidingWindow.offer (older r.windowMs) r.maxIncrPerWindow.toNat nowMs
            (r.window x.contentName).timestamps x.clock).2
          (if (SlidingWindow.offer (older r.windowMs) r.maxIncrPerWindow.toNat nowMs
              (r.window x.contentName).timestamps x.clock).1 then
            nowMs x.clock :: timesOf x.contentName A
          else timesOf x.contentName A) :=
        (h.tracks x.contentName).offer (ageing_older _) hle
      rw [offer_call] at hoffer
      rw [timesOf_recorded_self]
      cases hc : (r.call x).1.clamped with
      | true => simpa only [hc, if_true, Bool.not_true, Bool.false_eq_true, if_false]
          using hoffer
      | false => simpa only [hc, if_true, Bool.not_false, Bool.false_eq_true, if_false]
          using hoffer
    · rw [window_call_of_ne hn, timesOf_recorded_of_ne hn]
      exact (h.tracks n).mono hle
  lastPh n := by
    by_cases hn : n = x.contentName
    · subst hn
      rw [window_call_self, effectivePh_call, recorded]
      split_ifs
      · exact h.lastPh _
      · simp [latestPh]
    · rw [window_call_of_ne hn, latestPh_recorded_of_ne hn]
      exact h.lastPh n

/-! ## Whole runs -/

/-- **A run keeps the history** as long as its readings do not go back. -/
theorem remembers_final {xs : List (Op Name)} (h : Remembers limit windowSeconds now r A)
    (hmono : (now :: readings xs).Pairwise (· ≤ ·)) :
    Remembers limit windowSeconds ((readings xs).getLastD now)
      (Machine.final perform r xs)
      ((Machine.trace perform r xs).foldl unclampedSinceClear A) := by
  induction xs generalizing now r A with
  | nil => exact h
  | cons op xs ih =>
      cases op with
      | clear => exact ih h.clear hmono
      | checkAndUpdate x =>
          obtain ⟨hnow, hrest⟩ := List.pairwise_cons.mp hmono
          have hle : now ≤ reading x := hnow _ List.mem_cons_self
          show Remembers limit windowSeconds ((reading x :: readings xs).getLastD now)
            (Machine.final perform (r.call x).2 xs)
            ((Machine.trace perform (r.call x).2 xs).foldl unclampedSinceClear
              (unclampedSinceClear A ⟨r, .checkAndUpdate x, some (r.call x).1, (r.call x).2⟩))
          rw [List.getLastD_cons, unclampedSinceClear_check]
          exact ih (h.call hle) hrest

omit [DecidableEq Name] in
theorem getLastD_readings_le {xs : List (Op Name)} {t : ℕ}
    (ht : ∀ u ∈ readings xs, u ≤ t) : (readings xs).getLastD 0 ≤ t := by
  have hmem : (readings xs).getLastD 0 ∈ 0 :: readings xs := List.getLastD_mem_cons
  rcases List.mem_cons.mp hmem with hzero | hmem
  · rw [hzero]
    exact Nat.zero_le t
  · exact ht _ hmem

/-- The calls since the last `clear` are the newest ones. -/
theorem sinceClear_prefix_calls
    (run : List (Machine.Event (RateLimiter Name) (Op Name) (Option RateVerdict)))
    (hAB : A <+: B) :
    run.foldl unclampedSinceClear A <+: run.foldl unclampedCalls B := by
  induction run generalizing A B with
  | nil => exact hAB
  | cons e run ih =>
      apply ih
      cases hinp : e.inp with
      | clear =>
          simp only [unclampedSinceClear, hinp]
          exact List.nil_prefix
      | checkAndUpdate x =>
          simp only [unclampedSinceClear, unclampedCalls, hinp]
          exact (List.prefix_append_right_inj _).mpr hAB

/-- A limiter that allows nothing clamps every call. -/
theorem unclampedCalls_of_zero (hlimit : limit.toNat = 0) (xs : List (Op Name)) :
    (Machine.trace perform (new limit windowSeconds) xs).foldl unclampedCalls [] = [] := by
  have hrun : (Machine.final perform (new limit windowSeconds) xs).maxIncrPerWindow = limit ∧
      (Machine.trace perform (new limit windowSeconds) xs).foldl unclampedCalls [] = [] := by
    refine Machine.final_foldl (R := fun (r : RateLimiter Name) B =>
      r.maxIncrPerWindow = limit ∧ B = []) xs ⟨rfl, rfl⟩ ?_
    rintro r B op ⟨hr, rfl⟩
    cases op with
    | clear => exact ⟨hr, rfl⟩
    | checkAndUpdate x =>
        have hclamped : (r.call x).1.clamped = true := by
          rw [call, RateLimiter.clamped_iff, hr, hlimit]
          exact Nat.zero_le _
        refine ⟨hr, ?_⟩
        show (unclampedCall ⟨r, .checkAndUpdate x, some (r.call x).1, _⟩).toList ++ [] = []
        rw [unclampedCall_check, recorded, if_pos hclamped]
  exact hrun.2

/-- A call is clamped to the PH of an unclamped call since the last `clear`. -/
theorem latestPh_eq_of_prefix (hAB : A <+: B) {u : Unclamped Name} (hu : u ∈ A)
    (hn : u.contentName = n) : latestPh n A = latestPh n B := by
  have hsome : (A.find? fun u => u.contentName = n).isSome := by
    rw [List.find?_isSome]
    exact ⟨u, hu, by simpa using hn⟩
  obtain ⟨v, hv⟩ := Option.isSome_iff_exists.mp hsome
  rw [latestPh, latestPh, hv, hAB.find?_eq_some hv]

/-- **PH.** A clamped call gets the PH of the latest unclamped one, also of those
before the last `clear`: no call is clamped before there is one since then, unless
nothing is ever unclamped. -/
theorem Remembers.effectivePh_eq (h : Remembers limit windowSeconds now r A)
    (hle : now ≤ reading x) (hAB : A <+: B) (hzero : limit.toNat = 0 → B = []) :
    (r.call x).1.effectivePh =
      if (r.call x).1.clamped then latestPh x.contentName B else x.ph := by
  rw [effectivePh_call]
  split_ifs with hc
  · rw [h.lastPh]
    rcases Nat.eq_zero_or_pos limit.toNat with hlimit | hpos
    · have hB := hzero hlimit
      rw [hB] at hAB
      rw [List.prefix_nil.mp hAB, hB]
    · have hcount := hpos.trans_le ((h.clamped_iff hle).mp hc)
      obtain ⟨u, hu, hname⟩ := List.countP_pos_iff.mp hcount
      simp only [decide_eq_true_eq] at hname
      exact latestPh_eq_of_prefix hAB hu hname.1
  · rfl

/-- The cast of the count to 32 bits is exact. -/
theorem toNat_windowCount (r : RateLimiter Name) (n : Name) (now : UInt64) :
    (UInt32.ofNat (purge r.windowMs now (r.window n).timestamps).length).toNat =
      (purge r.windowMs now (r.window n).timestamps).length := by
  have hlen := (length_purge_le r.windowMs now _).trans (r.length_window_le n)
  exact UInt32.toNat_ofNat_of_lt' (hlen.trans_lt r.maxIncrPerWindow.toNat_lt)

/-! ## Intervals -/

/-- The closed interval of `W` milliseconds that begins at `start`. -/
def InInterval (start : ℤ) (W t : ℕ) : Prop := start ≤ t ∧ (t : ℤ) ≤ start + W

instance (start : ℤ) (W : ℕ) : DecidablePred (InInterval start W) :=
  fun _ => inferInstanceAs (Decidable (_ ∧ _))

/-- An unclamped call for `n` in the interval. -/
def unclampedIn (n : Name) (start : ℤ) (W : ℕ)
    (e : Machine.Event (RateLimiter Name) (Call Name) RateVerdict) : Bool :=
  e.inp.contentName = n && (!e.out.clamped && InInterval start W (reading e.inp))

/-- The PHs that the calls for `n` leave, with their clock readings. -/
def effectivePhs (n : Name)
    (run : List (Machine.Event (RateLimiter Name) (Call Name) RateVerdict)) :
    List (ℕ × UInt8) :=
  run.filterMap fun e =>
    if e.inp.contentName = n then some (reading e.inp, e.out.effectivePh) else none

/-- How often the PH changes in the interval, `last` being the PH before. -/
def phChanges (start : ℤ) (W : ℕ) : UInt8 → List (ℕ × UInt8) → ℕ
  | _, [] => 0
  | last, (t, ph) :: rest =>
      (if InInterval start W t ∧ ph ≠ last then 1 else 0) + phChanges start W ph rest

/-- Only unclamped calls change the PH. -/
theorem phChanges_le (start : ℤ) (W : ℕ) (ys : List (Call Name)) :
    phChanges start W (r.window n).lastPh (effectivePhs n (Machine.trace call r ys)) ≤
      (Machine.trace call r ys).countP (unclampedIn n start W) := by
  induction ys generalizing r with
  | nil => exact Nat.zero_le _
  | cons x ys ih =>
      have hrest := ih (r := (r.call x).2)
      rw [Machine.trace, List.countP_cons, effectivePhs, List.filterMap_cons]
      by_cases hn : x.contentName = n
      · subst hn
        rw [window_call_self] at hrest
        simp only [if_true, phChanges]
        apply (Nat.add_le_add_left hrest _).trans
        rw [Nat.add_comm]
        apply Nat.add_le_add_left
        rw [effectivePh_call, unclampedIn]
        cases hc : (r.call x).1.clamped with
        | true => simp
        | false =>
            by_cases hin : InInterval start W (reading x)
            · simp only [hin, decide_true, Bool.not_false, Bool.and_self, if_true]
              split_ifs <;> simp
            · simp [hin]
      · rw [window_call_of_ne (Ne.symm hn)] at hrest
        simpa [hn, unclampedIn, effectivePhs] using hrest

/-- In a stretch without `clear` no window holds more than the limit. -/
theorem countP_unclampedIn_le {ys : List (Call Name)}
    (hms : r.windowMs = windowSeconds.toUInt64 * 1000)
    (hmono : (ys.map reading).Pairwise (· ≤ ·)) (n : Name) (start : ℤ) :
    (Machine.trace call r ys).countP
        (unclampedIn n start (windowSeconds.toNat * 1000)) ≤
      r.maxIncrPerWindow.toNat := by
  let inside : Clock → Prop :=
    fun c => InInterval start (windowSeconds.toNat * 1000) (nowMs c).toNat
  -- the stretch before the end of the interval
  let before : Clock → Prop :=
    fun c => ((nowMs c).toNat : ℤ) ≤ start + (windowSeconds.toNat * 1000 : ℕ)
  have hclocks : ((ys.filter fun x => x.contentName = n).map Call.clock).Pairwise
      fun c c' => (nowMs c).toNat ≤ (nowMs c').toNat := by
    rw [List.pairwise_map] at hmono ⊢
    exact hmono.sublist List.filter_sublist
  have hin : ∀ c, inside c → before c := fun c hc => hc.2
  have hpair : ((ys.filter fun x => x.contentName = n).map Call.clock).Pairwise
      fun c c' => inside c → before c' →
        older r.windowMs (nowMs c') (nowMs c) = false := by
    apply hclocks.imp
    intro c c' hle hc hc'
    obtain ⟨hstart, -⟩ := hc
    have hend : ((nowMs c').toNat : ℤ) ≤ start + (windowSeconds.toNat * 1000 : ℕ) := hc'
    rw [← Bool.not_eq_true, older_iff hle, hms, toNat_windowMs]
    omega
  have hcount := countP_trace_call (n := n) (fun c => decide (inside c)) r ys
  refine hcount.trans_le ?_
  apply SlidingWindow.countP_admitted_le (r.length_window_le n) hin
  · exact hclocks.imp fun hle hz => (Int.ofNat_le.mpr hle).trans hz
  · exact hpair

/-- **The limiter is an exact sliding window.** For every limit and window, and
every run of `checkAndUpdate` and `clear` whose clock readings do not go back,
with `A` the unclamped calls since the last `clear` and `B` all of them: the
verdict and the PH of the next call; the deques; and, in a stretch `ys` without
`clear`, the unclamped calls for a name in a closed interval of the length of
the window, and the changes of its PH there. -/
theorem exact_window (limit windowSeconds : UInt32) (xs : List (Op Name))
    (hmono : (readings xs).Pairwise (· ≤ ·)) :
    let W := windowSeconds.toNat * 1000
    let r := Machine.final perform (new limit windowSeconds) xs
    let A := (Machine.trace perform (new limit windowSeconds) xs).foldl
      unclampedSinceClear []
    let B := (Machine.trace perform (new limit windowSeconds) xs).foldl
      unclampedCalls []
    (∀ x : Call Name, (∀ t ∈ readings xs, t ≤ reading x) →
      ((r.call x).1.clamped = true ↔
        limit.toNat ≤ countInWindow x.contentName W (reading x) A) ∧
      (r.call x).1.effectivePh =
        if (r.call x).1.clamped then latestPh x.contentName B else x.ph) ∧
    (∀ n, (r.window n).timestamps.Pairwise (fun t t' => t.toNat ≤ t'.toNat) ∧
      (r.window n).timestamps.length ≤ limit.toNat ∧
      ∀ now, (UInt32.ofNat (purge r.windowMs now (r.window n).timestamps).length).toNat =
        (purge r.windowMs now (r.window n).timestamps).length) ∧
    ∀ ys : List (Call Name), (ys.map reading).Pairwise (· ≤ ·) → ∀ n start,
      (Machine.trace call r ys).countP (unclampedIn n start W) ≤ limit.toNat ∧
      phChanges start W (latestPh n A) (effectivePhs n (Machine.trace call r ys)) ≤
        limit.toNat := by
  intro W r A B
  have h : Remembers limit windowSeconds ((readings xs).getLastD 0) r A :=
    remembers_final (remembers_new limit windowSeconds 0)
      (List.pairwise_cons.mpr ⟨fun t _ => Nat.zero_le t, hmono⟩)
  have hAB : A <+: B := sinceClear_prefix_calls _ List.nil_prefix
  refine ⟨fun x hx => ?_, fun n => ?_, fun ys hys n start => ?_⟩
  · have hle := getLastD_readings_le hx
    have hclamped := h.clamped_iff hle
    exact ⟨hclamped, h.effectivePh_eq hle hAB fun hzero => unclampedCalls_of_zero hzero xs⟩
  · have hlen := r.length_window_le n
    rw [h.limit_eq] at hlen
    exact ⟨(h.tracks n).sorted, hlen, toNat_windowCount r n⟩
  · have hcount := countP_unclampedIn_le h.windowMs_eq hys n start
    rw [h.limit_eq] at hcount
    refine ⟨hcount, ?_⟩
    rw [← h.lastPh]
    exact (phChanges_le start W ys).trans hcount

/-- With a limit of 1, a second call in the same millisecond is clamped to the PH
of the first. -/
theorem exact_window_two :
    let r := Machine.final perform (new 1 60 : RateLimiter ℕ)
      [.checkAndUpdate ⟨⟨1000000000, 0⟩, 0, 7⟩]
    (r.call ⟨⟨1000000000, 0⟩, 0, 9⟩).1 = ⟨true, 7⟩ := by
  intro r
  have h := (exact_window 1 60
    [.checkAndUpdate (⟨⟨1000000000, 0⟩, 0, 7⟩ : Call ℕ)] (by decide +kernel)).1
    ⟨⟨1000000000, 0⟩, 0, 9⟩ (by decide +kernel)
  have hclamped := h.1.mpr (by decide +kernel)
  have hph := h.2
  rw [hclamped, if_pos rfl] at hph
  have hseven : (r.call ⟨⟨1000000000, 0⟩, 0, 9⟩).1.effectivePh = 7 := hph.trans (by decide +kernel)
  rw [← hseven, ← hclamped]

/-- **A `clear` starts a new budget.** With a limit of 1, two calls in one
millisecond are both unclamped when a `clear` comes between them. -/
theorem clear_renews_budget :
    ¬ ∀ (limit windowSeconds : UInt32) (xs : List (Op ℕ)),
      (readings xs).Pairwise (· ≤ ·) → ∀ (n : ℕ) (start : ℤ),
        (Machine.trace perform (new limit windowSeconds : RateLimiter ℕ) xs).countP
          (fun e => (unclampedCall e).any fun u => u.contentName = n ∧
            InInterval start (windowSeconds.toNat * 1000) u.time.toNat) ≤
          limit.toNat := by
  intro hclaim
  have hbound := hclaim 1 60 [.checkAndUpdate ⟨⟨1000000000, 0⟩, 0, 1⟩, .clear,
    .checkAndUpdate ⟨⟨1000000000, 0⟩, 0, 2⟩] (by decide +kernel) 0 1000
  exact absurd hbound (by decide +kernel)

/-! ## Who uses the budget -/

/-- The earlier calls of a list of calls, at each of its calls. -/
theorem forall_split_cons {α : Type} {p : List α → α → Prop} {y : α} {l : List α} :
    (∀ before x after, y :: l = before ++ x :: after → p before x) ↔
      p [] y ∧ ∀ before x after, l = before ++ x :: after → p (y :: before) x := by
  constructor
  · intro h
    refine ⟨h [] y l rfl, fun before x after hl => ?_⟩
    exact h (y :: before) x after (by rw [hl]; rfl)
  · rintro ⟨hhead, htail⟩ before x after hl
    cases before with
    | nil =>
        obtain ⟨rfl, -⟩ := List.cons.inj hl
        exact hhead
    | cons z before =>
        obtain ⟨rfl, hrest⟩ := List.cons.inj hl
        exact htail before x after hrest

theorem countInWindow_recorded_of_ne {W t : ℕ} (hn : x.contentName ≠ n) :
    countInWindow n W t (recorded r x A) = countInWindow n W t A := by
  rw [recorded]
  split_ifs
  · rfl
  · simp [countInWindow, hn]

/-- An unclamped call adds one to the windows that reach back to it. -/
theorem countInWindow_recorded {W t : ℕ} (hc : (r.call x).1.clamped = false)
    (hle : reading x ≤ t) : countInWindow x.contentName W t (recorded r x A) =
      countInWindow x.contentName W t A + if t ≤ reading x + W then 1 else 0 := by
  have hle' : (nowMs x.clock).toNat ≤ t := hle
  rw [recorded, hc, if_neg Bool.false_ne_true, countInWindow, List.countP_cons]
  simp only [true_and, hle', decide_eq_true_eq]
  rfl

/-- After the history `A`, each of the calls `l` for `n` finds room left by it and
by the calls of `l` before. -/
def FindRoom (limit W : ℕ) (n : Name) (A : List (Unclamped Name)) (l : List (Call Name)) :
    Prop :=
  ∀ before x after, l = before ++ x :: after →
    countInWindow n W (reading x) A +
      before.countP (fun y => reading x ≤ reading y + W) < limit

/-- The first of the calls moves into the history when it is unclamped. -/
theorem findRoom_cons {limit W : ℕ} {l : List (Call Name)}
    (hc : (r.call x).1.clamped = false) (hl : ∀ z ∈ l, reading x ≤ reading z) :
    FindRoom limit W x.contentName A (x :: l) ↔
      countInWindow x.contentName W (reading x) A < limit ∧
        FindRoom limit W x.contentName (recorded r x A) l := by
  rw [FindRoom, forall_split_cons, List.countP_nil, Nat.add_zero]
  refine and_congr Iff.rfl ?_
  refine forall_congr' fun before => forall_congr' fun z => forall_congr' fun after =>
    forall_congr' fun hz => ?_
  have hmem : z ∈ l := by
    rw [hz]
    exact List.mem_append_right _ List.mem_cons_self
  rw [countInWindow_recorded hc (hl z hmem), List.countP_cons]
  simp only [decide_eq_true_eq]
  rw [Nat.add_assoc, Nat.add_comm (List.countP _ before)]

theorem findRoom_recorded_of_ne {limit W : ℕ} {l : List (Call Name)}
    (hn : x.contentName ≠ n) :
    FindRoom limit W n (recorded r x A) l ↔ FindRoom limit W n A l := by
  simp only [FindRoom, countInWindow_recorded_of_ne hn]

/-- From any point of a run: no call for `n` is clamped exactly when each finds
room. -/
theorem Remembers.forall_unclamped_iff {xs : List (Call Name)}
    (h : Remembers limit windowSeconds now r A)
    (hmono : (now :: xs.map reading).Pairwise (· ≤ ·)) (n : Name) :
    (∀ e ∈ Machine.trace RateLimiter.call r xs, e.inp.contentName = n →
        e.out.clamped = false) ↔
      FindRoom limit.toNat (windowSeconds.toNat * 1000) n A
        (xs.filter fun y => y.contentName = n) := by
  induction xs generalizing now r A with
  | nil => simp [FindRoom]
  | cons x xs ih =>
      obtain ⟨hnow, hrest⟩ := List.pairwise_cons.mp hmono
      have hle : now ≤ reading x := hnow _ List.mem_cons_self
      have htail := ih (h.call hle) hrest
      rw [Machine.trace, List.forall_mem_cons, htail]
      by_cases hn : x.contentName = n
      · subst hn
        rw [List.filter_cons_of_pos (by simp)]
        have hclamped := h.clamped_iff hle
        cases hc : (r.call x).1.clamped with
        | true =>
            -- neither side holds at `x`
            refine iff_of_false (fun hnever => ?_) (fun hroom => ?_)
            · exact Bool.noConfusion (hnever.1 rfl)
            · have hfirst := hroom [] x _ rfl
              exact absurd (hclamped.mp hc) (Nat.not_le_of_lt hfirst)
        | false =>
            have hroom : countInWindow x.contentName (windowSeconds.toNat * 1000)
                (reading x) A < limit.toNat := by
              apply Nat.lt_of_not_le
              rw [← hclamped, hc]
              exact Bool.false_ne_true
            have hlater : ∀ z ∈ xs.filter fun y => y.contentName = x.contentName,
                reading x ≤ reading z := fun z hz =>
              (List.pairwise_cons.mp hrest).1 _
                (List.mem_map_of_mem (List.mem_of_mem_filter hz))
            rw [findRoom_cons hc hlater]
            exact and_congr (iff_of_true (fun _ => rfl) hroom) Iff.rfl
      · rw [List.filter_cons_of_neg (by simpa using hn), findRoom_recorded_of_ne hn]
        exact and_iff_right fun heq => absurd heq hn

/-- **When no call is clamped.** For every limit and window, every run of calls
whose clock readings do not go back and every name: no call for the name is
clamped exactly when every call for it has fewer than the limit of earlier calls
for it in its window, whatever their PHs are and whatever the other names do. -/
theorem never_clamped_iff (limit windowSeconds : UInt32) (xs : List (Call Name))
    (hmono : (xs.map reading).Pairwise (· ≤ ·)) (n : Name) :
    (∀ e ∈ Machine.trace call (new limit windowSeconds : RateLimiter Name) xs,
        e.inp.contentName = n → e.out.clamped = false) ↔
      ∀ before x after, xs.filter (fun y => y.contentName = n) = before ++ x :: after →
        before.countP (fun y => reading x ≤ reading y + windowSeconds.toNat * 1000) <
          limit.toNat := by
  have hiff := (remembers_new limit windowSeconds 0).forall_unclamped_iff
    (List.pairwise_cons.mpr ⟨fun t _ => Nat.zero_le t, hmono⟩) n
  simpa [FindRoom, countInWindow] using hiff

/-- Three calls for a name within a limit of 2, because the first two have expired when
the third comes, and a call for another name. -/
def sampleCalls : List (Call ℕ) :=
  [⟨⟨1000000000, 0⟩, 0, 7⟩, ⟨⟨1000000000, 0⟩, 1, 9⟩, ⟨⟨2000000000, 0⟩, 0, 7⟩,
    ⟨⟨70000000000, 0⟩, 0, 7⟩]

theorem never_clamped_iff_sample :
    ((Machine.trace call (new 2 60 : RateLimiter ℕ) sampleCalls).filter
      fun e => e.inp.contentName = 0).all (fun e => !e.out.clamped) = true := by
  have hnever := (never_clamped_iff 2 60 sampleCalls (by decide +kernel) 0).mpr
    fun before x after hsplit => by
      rcases before with _ | ⟨y, _ | ⟨z, _ | ⟨w, before⟩⟩⟩
      · cases hsplit
        decide +kernel
      · cases hsplit
        decide +kernel
      · cases hsplit
        decide +kernel
      · have hthree : (sampleCalls.filter fun y => y.contentName = 0).length = 3 := by
          decide +kernel
        rw [hsplit] at hthree
        simp at hthree
  rw [List.all_eq_true]
  intro e he
  obtain ⟨hmem, hname⟩ := List.mem_filter.mp he
  rw [hnever e hmem (of_decide_eq_true hname), Bool.not_false]

/-- **Equal PHs use up the budget.** With a limit of 1, a second call with the
same PH is clamped. -/
theorem constant_ph_clamped :
    ¬ ∀ (limit windowSeconds : UInt32) (xs : List (Call ℕ)), 1 ≤ limit.toNat →
      (xs.map reading).Pairwise (· ≤ ·) → ∀ n,
        ((xs.filter fun x => x.contentName = n).map Call.ph).Pairwise
          (fun ph ph' => ph'.toNat ≤ ph.toNat) →
        ∀ e ∈ Machine.trace call (new limit windowSeconds : RateLimiter ℕ) xs,
          e.inp.contentName = n → e.out.clamped = false := by
  intro hclaim
  have hnever := hclaim 1 60 [⟨⟨1000000000, 0⟩, 0, 7⟩, ⟨⟨1000000000, 0⟩, 0, 7⟩]
    (by decide) (by decide +kernel) 0 (by decide +kernel)
  exact absurd hnever (by decide +kernel)

end RateLimiter
end CaccSecure
