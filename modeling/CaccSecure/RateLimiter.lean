import Mathlib.Data.Finmap
import CaccSecure.Lib.SlidingWindow

/-!
# Algorithm 3: rate limiting

A sliding window of time stamps per content name. `nowMs` chooses between the
simulated and the wall clock; both are part of the reading that a call is made
at, and all time arithmetic is unsigned and wraps at 64 bits. The limiter
carries the bound on the length of its deques, so that the count, which the
source casts to 32 bits, is always exact.
-/

namespace CaccSecure

/-- What the two clocks show at a call: `Simulator::Now()` and
`steady_clock::now()` since its epoch, both in nanoseconds. -/
structure Clock where
  simNs : Int64
  steadyNs : Int64
deriving DecidableEq

/-- Milliseconds of simulated time, or of the wall clock while simulated time
is still zero. -/
def nowMs (clock : Clock) : UInt64 :=
  if clock.simNs > 0 then (clock.simNs / 1000000).toUInt64
  else (clock.steadyNs / 1000000).toUInt64

structure Window where
  timestamps : List UInt64
  lastPh : UInt8
deriving DecidableEq

/-- The verdict of a check: whether PH was clamped, and the PH left behind. -/
structure RateVerdict where
  clamped : Bool
  effectivePh : UInt8
deriving DecidableEq

structure RateLimiter (Name : Type) [DecidableEq Name] where
  maxIncrPerWindow : UInt32
  windowMs : UInt64
  windows : Finmap (fun _ : Name => Window)
  length_le : ∀ n w, windows.lookup n = some w →
    w.timestamps.length ≤ maxIncrPerWindow.toNat

namespace RateLimiter

/-- `true` for a time stamp that is older than the window. -/
def older (windowMs now t : UInt64) : Bool := now - t > windowMs

/-- The purge loop. -/
def purge (windowMs now : UInt64) : List UInt64 → List UInt64
  | [] => []
  | front :: rest =>
      if older windowMs now front then purge windowMs now rest
      else front :: rest

theorem purge_eq (windowMs now : UInt64) (l : List UInt64) :
    purge windowMs now l = l.dropWhile (older windowMs now) := by
  induction l with
  | nil => rfl
  | cons front rest ih =>
      by_cases h : older windowMs now front
      · rw [purge, if_pos h, ih, List.dropWhile_cons_of_pos h]
      · rw [purge, if_neg h, List.dropWhile_cons_of_neg h]

theorem length_purge_le (windowMs now : UInt64) (l : List UInt64) :
    (purge windowMs now l).length ≤ l.length := by
  rw [purge_eq]
  exact (List.dropWhile_sublist _).length_le

/-- The body of `checkAndUpdate` on the window of the name. -/
def checkWindow (maxIncrPerWindow : UInt32) (windowMs now : UInt64) (w : Window)
    (ph : UInt8) : RateVerdict × Window :=
  let w := { w with timestamps := purge windowMs now w.timestamps }
  let windowCount := UInt32.ofNat w.timestamps.length
  if windowCount ≥ maxIncrPerWindow then (⟨true, w.lastPh⟩, w)
  else (⟨false, ph⟩, ⟨w.timestamps ++ [now], ph⟩)

/-- Within the bound the cast count is the length of the deque. -/
theorem ofNat_ge_iff {limit : UInt32} {k : ℕ} (hk : k ≤ limit.toNat) :
    UInt32.ofNat k ≥ limit ↔ limit.toNat ≤ k := by
  have hlt := limit.toNat_lt
  have hval : (UInt32.ofNat k).toNat = k := by
    rw [UInt32.toNat_ofNat']
    omega
  rw [ge_iff_le, UInt32.le_iff_toNat_le, hval]

theorem length_checkWindow_le {limit : UInt32} {windowMs now : UInt64}
    {w : Window} {ph : UInt8} (h : w.timestamps.length ≤ limit.toNat) :
    (checkWindow limit windowMs now w ph).2.timestamps.length ≤ limit.toNat := by
  have hpurge := Nat.le_trans (length_purge_le windowMs now w.timestamps) h
  unfold checkWindow
  simp only
  split_ifs with hfull
  · exact hpurge
  · rw [ofNat_ge_iff hpurge] at hfull
    simp only [List.length_append, List.length_singleton]
    omega

variable {Name : Type} [DecidableEq Name]

/-- The constructor. -/
def new (maxIncrPerWindow windowSeconds : UInt32) : RateLimiter Name where
  maxIncrPerWindow := maxIncrPerWindow
  windowMs := windowSeconds.toUInt64 * 1000
  windows := ∅
  length_le := by simp

/-- `m_windows[contentName]`, an empty window for a new name. -/
def window (r : RateLimiter Name) (contentName : Name) : Window :=
  (r.windows.lookup contentName).getD ⟨[], 0⟩

theorem length_window_le (r : RateLimiter Name) (n : Name) :
    (r.window n).timestamps.length ≤ r.maxIncrPerWindow.toNat := by
  unfold window
  cases h : r.windows.lookup n with
  | none => exact Nat.zero_le _
  | some w => exact r.length_le n w h

def checkAndUpdate (r : RateLimiter Name) (clock : Clock) (contentName : Name)
    (ph : UInt8) : RateVerdict × RateLimiter Name :=
  let now := nowMs clock
  let result := checkWindow r.maxIncrPerWindow r.windowMs now
    (r.window contentName) ph
  (result.1,
    { r with
      windows := r.windows.insert contentName result.2
      length_le := by
        intro n w hw
        by_cases hn : n = contentName
        · subst hn
          rw [Finmap.lookup_insert] at hw
          cases hw
          exact length_checkWindow_le (r.length_window_le n)
        · rw [Finmap.lookup_insert_of_ne _ hn] at hw
          exact r.length_le n w hw })

def clear (r : RateLimiter Name) : RateLimiter Name :=
  { r with windows := ∅, length_le := by simp }

def size (r : RateLimiter Name) : ℕ := r.windows.keys.card

variable {r : RateLimiter Name} {clock : Clock} {n m : Name} {ph : UInt8}

@[simp] theorem window_new (limit windowSeconds : UInt32) (n : Name) :
    (new limit windowSeconds : RateLimiter Name).window n = ⟨[], 0⟩ := by
  simp [window, new]

theorem checkAndUpdate_fst : (r.checkAndUpdate clock n ph).1 =
    (checkWindow r.maxIncrPerWindow r.windowMs (nowMs clock) (r.window n) ph).1 :=
  rfl

/-- A call is clamped exactly when the purged window of its name is full. -/
theorem clamped_iff : (r.checkAndUpdate clock n ph).1.clamped = true ↔
    r.maxIncrPerWindow.toNat ≤
      (purge r.windowMs (nowMs clock) (r.window n).timestamps).length := by
  have hlen := Nat.le_trans (length_purge_le r.windowMs (nowMs clock) _)
    (r.length_window_le n)
  rw [checkAndUpdate_fst, ← ofNat_ge_iff hlen]
  simp only [checkWindow]
  split_ifs with hfull <;> simp [hfull]

@[simp] theorem maxIncrPerWindow_checkAndUpdate :
    (r.checkAndUpdate clock n ph).2.maxIncrPerWindow = r.maxIncrPerWindow := rfl

@[simp] theorem windowMs_checkAndUpdate :
    (r.checkAndUpdate clock n ph).2.windowMs = r.windowMs := rfl

theorem window_checkAndUpdate_self : (r.checkAndUpdate clock n ph).2.window n =
    (checkWindow r.maxIncrPerWindow r.windowMs (nowMs clock) (r.window n) ph).2 := by
  simp [window, checkAndUpdate]

/-- A call for another name leaves the window of a name alone. -/
theorem window_checkAndUpdate_of_ne (hm : m ≠ n) :
    (r.checkAndUpdate clock n ph).2.window m = r.window m := by
  simp [window, checkAndUpdate, Finmap.lookup_insert_of_ne _ hm]

/-- On the deque of its name, a call is one input of a sliding-window limiter,
admitted when it is not clamped. -/
theorem checkWindow_offer {limit : UInt32} {windowMs : UInt64} {w : Window}
    (h : w.timestamps.length ≤ limit.toNat) :
    SlidingWindow.offer (older windowMs) limit.toNat nowMs w.timestamps clock =
      (!(checkWindow limit windowMs (nowMs clock) w ph).1.clamped,
        (checkWindow limit windowMs (nowMs clock) w ph).2.timestamps) := by
  have hpurge := Nat.le_trans (length_purge_le windowMs (nowMs clock) w.timestamps) h
  have hge := ofNat_ge_iff hpurge
  unfold SlidingWindow.offer checkWindow
  simp only [← purge_eq]
  by_cases hfull : limit.toNat ≤ (purge windowMs (nowMs clock) w.timestamps).length
  · rw [if_pos hfull, if_pos (hge.mpr hfull)]
    rfl
  · rw [if_neg hfull, if_neg (mt hge.mp hfull)]
    rfl

end RateLimiter
end CaccSecure
