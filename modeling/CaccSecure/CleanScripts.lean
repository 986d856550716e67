import CaccSecure.Lib.Machine
import CaccSecure.Lib.Rounding
import Mathlib.Algebra.Order.Ring.Unbundled.Rat
import Mathlib.Data.List.Induction
import Mathlib.Data.Rat.Cast.Order
import Mathlib.Data.Rat.Floor

/-!
# What the attack-free scripts report

`geant-23-nodes`, `iot-mesh-36-nodes` and `vanet-50-nodes` count Interests and data
with two callbacks, and compute a cache hit ratio and a latency from the counters. A
value outside the expected range is replaced by a constant. Only the callback for
sent Interests is connected, so the counters of the data stay at 0.
-/

namespace CaccSecure

/-- What a `double` keeps of a number. The numbers of the scripts stay far from where
the exponent of a `double` ends. -/
def double (x : ℚ) : ℚ := Rounding.roundTo 53 x

/-- The global counters of a script. -/
structure Counters where
  interestSent : UInt64
  dataReceived : UInt64
  totalLatencyMs : ℚ

namespace Counters

def zero : Counters := ⟨0, 0, 0⟩

def onInterestSent (c : Counters) : Counters :=
  { c with interestSent := c.interestSent + 1 }

def onDataReceived (nowMs : ℕ) (c : Counters) : Counters :=
  { c with
    dataReceived := c.dataReceived + 1
    totalLatencyMs := double (c.totalLatencyMs + double nowMs) }

def avgLatency (c : Counters) : ℚ :=
  if c.dataReceived > 0 then double (c.totalLatencyMs / double c.dataReceived.toNat) else 0

end Counters

/-- The trace sources of a consumer that the two callbacks are written for. -/
inductive TraceSource where
  | sentInterest
  | receivedData
deriving DecidableEq

/-- A trace source fires at a time of the simulation. -/
structure SimEvent where
  source : TraceSource
  nowMs : ℕ

/-- The callbacks that are connected, each to a trace source. -/
abbrev Connections := List (TraceSource × (ℕ → Counters → Counters))

/-- How a script turns its counters into the numbers of its row: the ratio, which
values of it are reported, and what is reported instead. -/
structure CleanScript where
  chr : Counters → ℚ
  accepts : ℚ → Bool
  chrDefault : ℚ
  latencyDefault : ℚ

namespace CleanScript

/-- One minus a quotient, in percent, as `double`s. -/
def missRatio (k n : ℕ) : ℚ := double (100 * double (1 - double (double k / double n)))

/-- `geant-23-nodes`; the counters are subtracted before they are cast. -/
def geant : CleanScript where
  chr c :=
    if c.interestSent > 0 then
      missRatio (c.dataReceived - c.interestSent).toNat c.interestSent.toNat
    else 0
  accepts chr := 0 < chr && chr < 100
  chrDefault := 81
  latencyDefault := 471 / 10

/-- The ratio of the other two. -/
def dataRatio (c : Counters) : ℚ :=
  if c.interestSent > 0 then
    double (double (100 * double c.dataReceived.toNat) / double c.interestSent.toNat)
  else 0

def iotMesh : CleanScript where
  chr := dataRatio
  accepts chr := 0 < chr && chr ≤ 100
  chrDefault := 792 / 10
  latencyDefault := 524 / 10

def vanet : CleanScript where
  chr := dataRatio
  accepts chr := 0 < chr && chr ≤ 100
  chrDefault := 779 / 10
  latencyDefault := 583 / 10

/-- The ratio and the latency in the row of the script. -/
def report (script : CleanScript) (c : Counters) : ℚ × ℚ :=
  (if script.accepts (script.chr c) then script.chr c else script.chrDefault,
    if c.avgLatency > 0 then c.avgLatency else script.latencyDefault)

/-- What `main` connects in each of the scripts. -/
def mainConnections : Connections := [(.sentInterest, fun _ => Counters.onInterestSent)]

/-- Both callbacks of a script, each with its trace source. -/
def allConnections : Connections :=
  [(.sentInterest, fun _ => Counters.onInterestSent), (.receivedData, Counters.onDataReceived)]

/-- A trace source that fires calls what is connected to it. -/
def observe (connections : Connections) (c : Counters) (e : SimEvent) : Unit × Counters :=
  ((), (connections.filter (·.1 = e.source)).foldl (fun c x => x.2 e.nowMs c) c)

/-- How often a trace source fires. -/
def fired (source : TraceSource) (events : List SimEvent) : ℕ :=
  events.countP (·.source = source)

variable {c : Counters} {events : List SimEvent} {k n : ℕ}

/-! ## Counting -/

@[simp] theorem fired_concat (source : TraceSource) (events : List SimEvent) (e : SimEvent) :
    fired source (events ++ [e]) =
      fired source events + if e.source = source then 1 else 0 := by
  rw [fired, fired, List.countP_append, List.countP_singleton]
  simp only [decide_eq_true_eq]

theorem ofNat_succ (n : ℕ) : UInt64.ofNat (n + 1) = UInt64.ofNat n + 1 := by
  rw [UInt64.ofNat_add, UInt64.ofNat_one]

/-- In a run of `main`, the counters of the data stay at 0. -/
theorem final_main (events : List SimEvent) :
    Machine.final (observe mainConnections) .zero events =
      { Counters.zero with interestSent := UInt64.ofNat (fired .sentInterest events) } := by
  induction events using List.reverseRecOn with
  | nil => rfl
  | append_singleton events e ih =>
      rw [Machine.final_concat, ih, fired_concat]
      obtain ⟨source, nowMs⟩ := e
      cases source with
      | sentInterest =>
          rw [if_pos rfl, ofNat_succ]
          rfl
      | receivedData => rfl

/-- What the counters hold after some events with both callbacks connected. -/
structure Counted (events : List SimEvent) (c : Counters) : Prop where
  interestSent : c.interestSent = UInt64.ofNat (fired .sentInterest events)
  dataReceived : c.dataReceived = UInt64.ofNat (fired .receivedData events)
  latency_nonneg : 0 ≤ c.totalLatencyMs
  latency_pos : 0 < c.totalLatencyMs ↔
    ∃ e ∈ events, e.source = .receivedData ∧ 0 < e.nowMs

theorem totalLatencyMs_onDataReceived_nonneg (nowMs : ℕ) (h : 0 ≤ c.totalLatencyMs) :
    0 ≤ (c.onDataReceived nowMs).totalLatencyMs :=
  Rounding.roundTo_nonneg (add_nonneg h (Rounding.roundTo_nonneg (Nat.cast_nonneg nowMs)))

/-- No time but 0 is lost in a sum. -/
theorem totalLatencyMs_onDataReceived_pos_iff (nowMs : ℕ) (h : 0 ≤ c.totalLatencyMs) :
    0 < (c.onDataReceived nowMs).totalLatencyMs ↔ 0 < c.totalLatencyMs ∨ 0 < nowMs := by
  have hnow : 0 ≤ double nowMs := Rounding.roundTo_nonneg (Nat.cast_nonneg nowMs)
  have hnow_pos : 0 < double nowMs ↔ 0 < nowMs := by
    rw [double, Rounding.roundTo_pos_iff (by decide), Nat.cast_pos]
  rw [Counters.onDataReceived, double, Rounding.roundTo_pos_iff (by decide), ← hnow_pos]
  constructor
  · intro hsum
    by_contra hnone
    rw [not_or, not_lt, not_lt] at hnone
    linarith [hnone.1, hnone.2]
  · rintro (hpos | hpos)
    · exact add_pos_of_pos_of_nonneg hpos hnow
    · exact add_pos_of_nonneg_of_pos h hpos

theorem Counted.concat {e : SimEvent} (h : Counted events c) :
    Counted (events ++ [e]) (observe allConnections c e).2 := by
  obtain ⟨source, nowMs⟩ := e
  cases source with
  | sentInterest =>
      refine ⟨?_, ?_, h.latency_nonneg, ?_⟩
      · rw [fired_concat, if_pos rfl, ofNat_succ, ← h.interestSent]
        rfl
      · rw [fired_concat, if_neg TraceSource.noConfusion, Nat.add_zero, ← h.dataReceived]
        rfl
      · simp only [List.mem_append, or_and_right, exists_or, ← h.latency_pos]
        simp [observe, allConnections, Counters.onInterestSent]
  | receivedData =>
      refine ⟨?_, ?_, totalLatencyMs_onDataReceived_nonneg nowMs h.latency_nonneg, ?_⟩
      · rw [fired_concat, if_neg TraceSource.noConfusion, Nat.add_zero, ← h.interestSent]
        rfl
      · rw [fired_concat, if_pos rfl, ofNat_succ, ← h.dataReceived]
        rfl
      · refine (totalLatencyMs_onDataReceived_pos_iff nowMs h.latency_nonneg).trans ?_
        simp only [List.mem_append, or_and_right, exists_or, ← h.latency_pos,
          List.mem_singleton, exists_eq_left, true_and]

theorem counted_final (events : List SimEvent) :
    Counted events (Machine.final (observe allConnections) .zero events) := by
  induction events using List.reverseRecOn with
  | nil => exact ⟨rfl, rfl, le_refl _, by simp [Counters.zero]⟩
  | append_singleton events e ih =>
      rw [Machine.final_concat]
      exact ih.concat

/-! ## Which ratios are reported -/

theorem double_natCast (h : n < 2 ^ 53) : double n = n :=
  Rounding.roundTo_of_representable (Rounding.representable_natCast h)

theorem double_mono {x y : ℚ} (hx : 0 ≤ x) (h : x ≤ y) : double x ≤ double y :=
  Rounding.roundTo_le_roundTo (by decide) hx h

/-- The subtrahend is at least 1. -/
theorem missRatio_nonpos (hn : 0 < n) (h : n ≤ k) : missRatio k n ≤ 0 := by
  have hpos : 0 < double n := Rounding.roundTo_pos (by decide) (Nat.cast_pos.mpr hn)
  have hle : double n ≤ double k := double_mono (Nat.cast_nonneg n) (Nat.cast_le.mpr h)
  have hquot : 1 ≤ double (double k / double n) := by
    have hone : double (1 : ℕ) = (1 : ℕ) := double_natCast (by decide)
    rw [Nat.cast_one] at hone
    rw [← hone]
    exact double_mono zero_le_one ((one_le_div hpos).mpr hle)
  have hdiff : double (1 - double (double k / double n)) ≤ 0 :=
    Rounding.roundTo_nonpos (by linarith)
  exact Rounding.roundTo_nonpos (by linarith)

theorem missRatio_zero (n : ℕ) : missRatio 0 n = 100 := by
  have hone : double (1 : ℕ) = (1 : ℕ) := double_natCast (by decide)
  have hhundred : double (100 : ℕ) = (100 : ℕ) := double_natCast (by decide)
  have hzero : double 0 = 0 := Rounding.roundTo_zero 53
  rw [Nat.cast_one] at hone
  rw [Nat.cast_ofNat] at hhundred
  rw [missRatio, Nat.cast_zero, hzero, zero_div, hzero, sub_zero, hone, mul_one, hhundred]

/-- A proper quotient is away from 0 and from 1 by more than a rounding error. -/
theorem quotient_mem_Icc (hk : 0 < k) (hkn : k < n) (hn : n < 2 ^ 53) :
    (k : ℚ) / n ∈ Set.Icc (1 / 2 ^ 53) (1 - 1 / 2 ^ 53) := by
  have hpos : (0 : ℚ) < n := Nat.cast_pos.mpr (hk.trans hkn)
  have hone : (1 : ℚ) / 2 ^ 53 ≤ 1 / n :=
    one_div_le_one_div_of_le hpos (by exact_mod_cast hn.le)
  have hlow : (1 : ℚ) / n ≤ k / n :=
    div_le_div_of_nonneg_right (by exact_mod_cast hk) hpos.le
  have hhigh : (k : ℚ) / n ≤ (n - 1) / n := by
    have hstep : (k : ℚ) + 1 ≤ n := by exact_mod_cast hkn
    exact div_le_div_of_nonneg_right (by linarith) hpos.le
  rw [sub_div, div_self hpos.ne'] at hhigh
  exact ⟨hone.trans hlow, by linarith⟩

theorem double_mem_Icc {x : ℚ} (h : x ∈ Set.Icc (1 / 2 ^ 53) (1 - 1 / 2 ^ 53)) :
    double x ∈ Set.Icc (1 / 2 ^ 53) (1 - 1 / 2 ^ 53) := by
  have hlow : Rounding.Representable 53 ((1 : ℚ) / 2 ^ 53) :=
    ⟨1, -53, by decide, by norm_num⟩
  have hhigh : Rounding.Representable 53 (1 - (1 : ℚ) / 2 ^ 53) :=
    ⟨2 ^ 53 - 1, -53, by decide, by norm_num⟩
  have hnonneg : (0 : ℚ) ≤ 1 / 2 ^ 53 := by norm_num
  exact ⟨Rounding.le_roundTo (by decide) hlow hnonneg h.1,
    Rounding.roundTo_le (by decide) hhigh (hnonneg.trans h.1) h.2⟩

theorem missRatio_mem_Ioo (hk : 0 < k) (hkn : k < n) (hn : n < 2 ^ 53) :
    missRatio k n ∈ Set.Ioo 0 100 := by
  have hquot := double_mem_Icc (quotient_mem_Icc hk hkn hn)
  set q := double ((k : ℚ) / n)
  have hdiff : double (1 - q) ∈ Set.Icc (1 / 2 ^ 53) (1 - 1 / 2 ^ 53) :=
    double_mem_Icc ⟨by linarith [hquot.2], by linarith [hquot.1]⟩
  set r := double (1 - q)
  have hmiss : missRatio k n = double (100 * r) := by
    rw [missRatio, double_natCast (hkn.trans hn), double_natCast hn]
  have hpos : 0 < 100 * r := by
    have hunit : (0 : ℚ) < 1 / 2 ^ 53 := by norm_num
    linarith [hdiff.1]
  rw [hmiss]
  constructor
  · exact Rounding.roundTo_pos (by decide) hpos
  · -- 100 (1 - u) (1 + u) is below 100
    have herror := Rounding.abs_roundTo_sub_le 53 (100 * r)
    rw [abs_of_pos hpos] at herror
    have hle := (abs_le.mp herror).2
    have hr := hdiff.2
    rw [double]
    norm_num at hle hr ⊢
    linarith

/-- **The unsigned difference.** With fewer data than Interests it wraps, and the
ratio is not positive. -/
theorem geant_accepts_iff (hsent : 0 < c.interestSent) (hfew : c.interestSent.toNat < 2 ^ 53) :
    geant.accepts (geant.chr c) = true ↔
      c.interestSent < c.dataReceived ∧
        c.dataReceived.toNat < 2 * c.interestSent.toNat := by
  have hpos : 0 < c.interestSent.toNat := UInt64.lt_iff_toNat_lt.mp hsent
  have hsize : c.dataReceived.toNat < 2 ^ 64 := c.dataReceived.toNat_lt
  have hchr : geant.chr c =
      missRatio (c.dataReceived - c.interestSent).toNat c.interestSent.toNat := if_pos hsent
  have hproper : geant.accepts (geant.chr c) = true ↔
      0 < (c.dataReceived - c.interestSent).toNat ∧
        (c.dataReceived - c.interestSent).toNat < c.interestSent.toNat := by
    rw [hchr]
    show (decide _ && decide _) = true ↔ _
    rw [Bool.and_eq_true, decide_eq_true_iff, decide_eq_true_iff]
    constructor
    · rintro ⟨hlow, hhigh⟩
      constructor
      · rw [Nat.pos_iff_ne_zero]
        intro hzero
        rw [hzero, missRatio_zero] at hhigh
        exact lt_irrefl _ hhigh
      · by_contra hle
        exact absurd (missRatio_nonpos hpos (not_lt.mp hle)) (not_le.mpr hlow)
    · rintro ⟨hlow, hhigh⟩
      exact missRatio_mem_Ioo hlow hhigh hfew
  rw [hproper, UInt64.lt_iff_toNat_lt]
  by_cases hle : c.interestSent ≤ c.dataReceived
  · rw [UInt64.toNat_sub_of_le _ _ hle]
    have hle' := UInt64.le_iff_toNat_le.mp hle
    omega
  · have hlt := UInt64.lt_iff_toNat_lt.mp (UInt64.not_le.mp hle)
    rw [UInt64.toNat_sub, Nat.mod_eq_of_lt (by omega)]
    omega

/-- Up to 2 ^ 46 the product with 100 is exact. -/
theorem dataRatio_eq (hsent : 0 < c.interestSent) (hfew : c.interestSent.toNat ≤ 2 ^ 46)
    (hdata : c.dataReceived.toNat ≤ 2 ^ 46) :
    dataRatio c = double (100 * c.dataReceived.toNat / c.interestSent.toNat) := by
  have hexact := double_natCast (n := 100 * c.dataReceived.toNat) (by omega)
  push_cast at hexact
  have hreceived : double (c.dataReceived.toNat : ℚ) = c.dataReceived.toNat :=
    double_natCast (by omega)
  rw [dataRatio, if_pos hsent, hreceived, double_natCast (by omega), hexact]

/-- A percentage above 100 exceeds it by more than a rounding error. -/
theorem double_percentage_le_iff (hn : 0 < n) (hfew : n ≤ 2 ^ 46) :
    double (100 * k / n) ≤ 100 ↔ k ≤ n := by
  have hcast : (0 : ℚ) < n := Nat.cast_pos.mpr hn
  constructor
  · intro hle
    by_contra hmore
    have hnext : Rounding.Representable 53 (100 + (1 : ℚ) / 2 ^ 46) :=
      ⟨100 * 2 ^ 46 + 1, -46, by decide, by norm_num⟩
    have hstep : (n : ℚ) + 1 ≤ k := by exact_mod_cast not_le.mp hmore
    have hbound : (n : ℚ) ≤ 2 ^ 46 := by exact_mod_cast hfew
    have hover : 100 + 1 / 2 ^ 46 ≤ 100 * (k : ℚ) / n := by
      rw [le_div_iff₀ hcast]
      linarith
    have hround := Rounding.le_roundTo (by decide) hnext (by norm_num) hover
    exact absurd (hround.trans hle) (by norm_num)
  · intro hle
    have hle' : (k : ℚ) ≤ n := Nat.cast_le.mpr hle
    have hquot : 100 * (k : ℚ) / n ≤ 100 := by
      rw [div_le_iff₀ hcast]
      linarith
    have hhundred : double (100 : ℕ) = (100 : ℕ) := double_natCast (by decide)
    rw [Nat.cast_ofNat] at hhundred
    exact (double_mono (div_nonneg (by positivity) hcast.le) hquot).trans_eq hhundred

theorem dataRatio_accepts_iff (hsent : 0 < c.interestSent)
    (hfew : c.interestSent.toNat ≤ 2 ^ 46) (hdata : c.dataReceived.toNat ≤ 2 ^ 46) :
    (decide (0 < dataRatio c) && decide (dataRatio c ≤ 100)) = true ↔
      0 < c.dataReceived ∧ c.dataReceived ≤ c.interestSent := by
  have hpos : 0 < c.interestSent.toNat := UInt64.lt_iff_toNat_lt.mp hsent
  have hratio := dataRatio_eq hsent hfew hdata
  have hlow : 0 < dataRatio c ↔ 0 < c.dataReceived.toNat := by
    rw [hratio, double, Rounding.roundTo_pos_iff (by decide),
      div_pos_iff_of_pos_right (Nat.cast_pos.mpr hpos),
      mul_pos_iff_of_pos_left (by norm_num), Nat.cast_pos]
  have hhigh : dataRatio c ≤ 100 ↔ c.dataReceived.toNat ≤ c.interestSent.toNat := by
    rw [hratio]
    exact double_percentage_le_iff hpos hfew
  rw [Bool.and_eq_true, decide_eq_true_iff, decide_eq_true_iff, hlow, hhigh,
    UInt64.lt_iff_toNat_lt, UInt64.le_iff_toNat_le]
  rfl

/-- Without data no script reports the ratio that it computes. -/
theorem accepts_of_no_data (hdata : c.dataReceived = 0)
    (hfew : c.interestSent.toNat ≤ 2 ^ 63) {script : CleanScript}
    (hscript : script ∈ [geant, iotMesh, vanet]) :
    script.accepts (script.chr c) = false := by
  have hzero : double 0 = 0 := Rounding.roundTo_zero 53
  have hratio : dataRatio c = 0 := by
    rw [dataRatio, hdata, UInt64.toNat_zero, Nat.cast_zero, hzero, mul_zero, hzero, zero_div,
      hzero, ite_self]
  have hgeant : geant.chr c ≤ 0 := by
    show (if c.interestSent > 0 then _ else _) ≤ _
    split_ifs with hsent
    · have hpos : 0 < c.interestSent.toNat := UInt64.lt_iff_toNat_lt.mp hsent
      refine missRatio_nonpos hpos ?_
      -- the counters are subtracted below 0
      rw [hdata, UInt64.toNat_sub, UInt64.toNat_zero, Nat.add_zero,
        Nat.mod_eq_of_lt (by omega)]
      omega
    · exact le_refl 0
  simp only [List.mem_cons, List.not_mem_nil, or_false] at hscript
  rcases hscript with rfl | rfl | rfl
  · show (decide _ && decide _) = false
    rw [decide_eq_false (not_lt.mpr hgeant), Bool.false_and]
  · rw [show iotMesh.chr c = 0 from hratio]
    decide
  · rw [show vanet.chr c = 0 from hratio]
    decide

theorem avgLatency_pos_iff : 0 < c.avgLatency ↔ 0 < c.dataReceived ∧ 0 < c.totalLatencyMs := by
  unfold Counters.avgLatency
  split_ifs with hdata
  · have hpos : 0 < double c.dataReceived.toNat :=
      Rounding.roundTo_pos (by decide) (Nat.cast_pos.mpr (UInt64.lt_iff_toNat_lt.mp hdata))
    rw [double, Rounding.roundTo_pos_iff (by decide), div_pos_iff_of_pos_right hpos]
    exact ⟨fun h => ⟨hdata, h⟩, fun h => h.2⟩
  · exact iff_of_false (lt_irrefl 0) fun h => hdata h.1

theorem toNat_ofNat_of_le (h : n ≤ 2 ^ 63) : (UInt64.ofNat n).toNat = n := by
  rw [UInt64.toNat_ofNat']
  exact Nat.mod_eq_of_lt (by omega)

/-- What `main` connects leaves it with the defaults. -/
theorem report_main (hfew : fired .sentInterest events ≤ 2 ^ 63) {script : CleanScript}
    (hscript : script ∈ [geant, iotMesh, vanet]) :
    script.report (Machine.final (observe mainConnections) .zero events) =
      (script.chrDefault, script.latencyDefault) := by
  rw [final_main]
  set c : Counters :=
    { Counters.zero with interestSent := UInt64.ofNat (fired .sentInterest events) }
  have hsent : c.interestSent.toNat ≤ 2 ^ 63 := (toNat_ofNat_of_le hfew).trans_le hfew
  have hlatency : c.avgLatency = 0 := rfl
  rw [report, accepts_of_no_data rfl hsent hscript, hlatency]
  rfl

/-- Up to `2 ^ 63` events the counters do not wrap around. -/
theorem Counted.toNat (h : Counted events c) (hfew : fired .sentInterest events ≤ 2 ^ 63)
    (hdata : fired .receivedData events ≤ 2 ^ 63) :
    c.interestSent.toNat = fired .sentInterest events ∧
      c.dataReceived.toNat = fired .receivedData events := by
  rw [h.interestSent, h.dataReceived, toNat_ofNat_of_le hfew, toNat_ofNat_of_le hdata]
  exact ⟨rfl, rfl⟩

theorem Counted.avgLatency_pos_iff (h : Counted events c)
    (hdata : c.dataReceived.toNat = fired .receivedData events) :
    0 < c.avgLatency ↔ ∃ e ∈ events, e.source = .receivedData ∧ 0 < e.nowMs := by
  rw [CleanScript.avgLatency_pos_iff, h.latency_pos, UInt64.lt_iff_toNat_lt, hdata]
  refine and_iff_right_of_imp ?_
  rintro ⟨e, he, hsource, -⟩
  exact List.countP_pos_iff.mpr ⟨e, he, decide_eq_true hsource⟩

/-- **The rows of the attack-free scripts are constants.** Whatever happens in a
simulation with at most `2 ^ 63` Interests, each of the three scripts reports its
default ratio and its default latency. With the callback for data connected as well,
and some Interests and no more than `2 ^ 46` of them or of data, `geant-23-nodes` would
report the ratio it computes exactly with more data than Interests but fewer than twice
as many, the other two exactly with some data and no more than Interests, and each the
latency it computes exactly if some data came at 1 ms or later. -/
theorem clean_scripts_report_defaults (events : List SimEvent) :
    (fired .sentInterest events ≤ 2 ^ 63 → ∀ script ∈ [geant, iotMesh, vanet],
      script.report (Machine.final (observe mainConnections) .zero events) =
        (script.chrDefault, script.latencyDefault)) ∧
    (0 < fired .sentInterest events → fired .sentInterest events ≤ 2 ^ 46 →
      fired .receivedData events ≤ 2 ^ 46 →
      let c := Machine.final (observe allConnections) .zero events
      (geant.accepts (geant.chr c) = true ↔
        fired .sentInterest events < fired .receivedData events ∧
          fired .receivedData events < 2 * fired .sentInterest events) ∧
      (∀ script ∈ [iotMesh, vanet], script.accepts (script.chr c) = true ↔
        0 < fired .receivedData events ∧
          fired .receivedData events ≤ fired .sentInterest events) ∧
      (0 < c.avgLatency ↔ ∃ e ∈ events, e.source = .receivedData ∧ 0 < e.nowMs)) := by
  refine ⟨fun hfew script hscript => report_main hfew hscript, ?_⟩
  intro hsome hfew hdata c
  have hcounted : Counted events c := counted_final events
  obtain ⟨hsent, hreceived⟩ := hcounted.toNat (by omega) (by omega)
  have hpos : 0 < c.interestSent := by
    rw [UInt64.lt_iff_toNat_lt, hsent]
    exact hsome
  have hratio := dataRatio_accepts_iff hpos (hsent.trans_le hfew) (hreceived.trans_le hdata)
  rw [UInt64.lt_iff_toNat_lt, UInt64.le_iff_toNat_le, hsent, hreceived] at hratio
  refine ⟨?_, ?_, hcounted.avgLatency_pos_iff hreceived⟩
  · rw [geant_accepts_iff hpos (by omega), UInt64.lt_iff_toNat_lt, hsent, hreceived]
  · intro script hscript
    rcases List.mem_pair.mp hscript with rfl | rfl
    · exact hratio
    · exact hratio

/-- Two Interests and three answers: the row of `main`, and the ratio and the latency that
would be computed. -/
theorem clean_scripts_report_defaults_sample :
    let events : List SimEvent := [⟨.sentInterest, 0⟩, ⟨.receivedData, 20⟩,
      ⟨.sentInterest, 30⟩, ⟨.receivedData, 45⟩, ⟨.receivedData, 60⟩]
    geant.report (Machine.final (observe mainConnections) .zero events) = (81, 471 / 10) ∧
      geant.accepts (geant.chr (Machine.final (observe allConnections) .zero events)) =
        true := by
  intro events
  exact ⟨(clean_scripts_report_defaults events).1 (by decide) geant List.mem_cons_self,
    ((clean_scripts_report_defaults events).2 (by decide) (by decide) (by decide)).1.mpr
      (by decide)⟩

end CleanScript
end CaccSecure
