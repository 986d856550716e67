import CaccSecure.RouterPipeline

/-!
# The helper

`CaccSecureHelper` stores attribute values and builds a pipeline from them.
`CreatePipeline` reads the unsigned attributes into one scratch variable, which
keeps its value when an attribute is missing, so that a parameter whose
attribute is missing is taken from the attribute read before it.
-/

namespace CaccSecure

/-- The attribute values of ns-3 that the helper tells apart. -/
inductive AttributeValue where
  | uinteger (value : UInt64)
  | double (value : ℚ)

structure CaccSecureHelper (Name : Type) [DecidableEq Name] where
  hmacKey : List UInt8
  attributes : Finmap (fun _ : String => AttributeValue)
  pipelines : Finmap (fun _ : UInt32 => RouterPipeline Name)

namespace CaccSecureHelper

variable {Name : Type} [DecidableEq Name]

/-- The constructor. -/
def new (hmacKey : List UInt8) : CaccSecureHelper Name := ⟨hmacKey, ∅, ∅⟩

def setAttribute (h : CaccSecureHelper Name) (name : String)
    (value : AttributeValue) : CaccSecureHelper Name :=
  { h with attributes := h.attributes.insert name value }

/-- The lambda `readUint`, which leaves `out` alone when the attribute is missing
or has another type. -/
def readUint (h : CaccSecureHelper Name) (name : String) (out : UInt32) : UInt32 :=
  match h.attributes.lookup name with
  | some (.uinteger v) => v.toUInt32
  | _ => out

/-- The lambda `readDouble`. -/
def readDouble (h : CaccSecureHelper Name) (name : String) (out : ℚ) : ℚ :=
  match h.attributes.lookup name with
  | some (.double v) => v
  | _ => out

def createPipeline (h : CaccSecureHelper Name) (nodeId : UInt32) :
    RouterPipeline Name :=
  let maxTrackedEntries : ℕ := 1000
  let maxRatePerWindow : UInt32 := 10
  let alpha : ℚ := 3 / 5
  let maxHops : UInt8 := 20
  let tmp : UInt32 := 0
  let tmp := h.readUint "MaxTrackedEntries" tmp
  let maxTrackedEntries := if tmp > 0 then tmp.toNat else maxTrackedEntries
  let tmp := h.readUint "MaxRatePerWindow" tmp
  let maxRatePerWindow := if tmp > 0 then tmp else maxRatePerWindow
  let alpha := h.readDouble "Alpha" alpha
  let tmp := h.readUint "MaxHops" tmp
  let maxHops := if tmp > 0 ∧ tmp ≤ 255 then tmp.toUInt8 else maxHops
  .new nodeId h.hmacKey maxTrackedEntries maxRatePerWindow alpha maxHops

def install (h : CaccSecureHelper Name) (nodeId : UInt32) : CaccSecureHelper Name :=
  if nodeId ∈ h.pipelines then h
  else { h with pipelines := h.pipelines.insert nodeId (h.createPipeline nodeId) }

def getPipeline (h : CaccSecureHelper Name) (nodeId : UInt32) :
    Option (RouterPipeline Name) :=
  h.pipelines.lookup nodeId

/-- A helper after some calls of `SetAttribute`. -/
def configured (hmacKey : List UInt8) (calls : List (String × AttributeValue)) :
    CaccSecureHelper Name :=
  calls.foldl (fun h x => h.setAttribute x.1 x.2) (new hmacKey)

/-! ## What the parameters should be -/

/-- The last value set for an attribute. -/
def lastValue (name : String) (calls : List (String × AttributeValue)) :
    Option AttributeValue :=
  ((calls.filter fun x => x.1 = name).getLast?).map Prod.snd

/-- The last value set for an unsigned attribute; a value of another type is as
good as none. -/
def lastUint (name : String) (calls : List (String × AttributeValue)) : Option ℕ :=
  match lastValue name calls with
  | some (.uinteger v) => some v.toNat
  | _ => none

def lastDouble (name : String) (calls : List (String × AttributeValue)) : Option ℚ :=
  match lastValue name calls with
  | some (.double v) => some v
  | _ => none

/-- An attribute that is valid, or else the default. -/
def chosen (valid : ℕ → Bool) (default : ℕ) (value : Option ℕ) : ℕ :=
  (value.filter valid).getD default

/-- The pipeline whose every parameter depends on its own attribute only. -/
def specified (nodeId : UInt32) (hmacKey : List UInt8)
    (calls : List (String × AttributeValue)) : RouterPipeline Name :=
  .new nodeId hmacKey
    (chosen (0 < ·) 1000 (lastUint "MaxTrackedEntries" calls))
    (UInt32.ofNat (chosen (0 < ·) 10 (lastUint "MaxRatePerWindow" calls)))
    ((lastDouble "Alpha" calls).getD (3 / 5))
    (UInt8.ofNat (chosen (fun v => 0 < v && v ≤ 255) 20 (lastUint "MaxHops" calls)))

variable {h : CaccSecureHelper Name} {nodeId : UInt32} {hmacKey : List UInt8}
  {calls : List (String × AttributeValue)} {name : String} {out : UInt32}

theorem lookup_configured (hmacKey : List UInt8)
    (calls : List (String × AttributeValue)) (name : String) :
    (configured hmacKey calls : CaccSecureHelper Name).attributes.lookup name =
      lastValue name calls := by
  induction calls using List.reverseRecOn with
  | nil => rfl
  | append_singleton calls x ih =>
      rw [configured, List.foldl_append]
      show ((configured hmacKey calls : CaccSecureHelper Name).attributes.insert
        x.1 x.2).lookup name = _
      rw [lastValue, List.filter_append]
      by_cases hx : x.1 = name
      · subst hx
        simp
      · rw [Finmap.lookup_insert_of_ne _ (Ne.symm hx), ih, lastValue]
        simp [hx]

theorem readUint_configured : (configured hmacKey calls : CaccSecureHelper Name).readUint
    name out = (lastUint name calls).elim out UInt32.ofNat := by
  rw [readUint, lookup_configured, lastUint]
  cases lastValue name calls with
  | none => rfl
  | some v => cases v <;> rfl

theorem readDouble_configured {x : ℚ} :
    (configured hmacKey calls : CaccSecureHelper Name).readDouble name x =
      (lastDouble name calls).getD x := by
  rw [readDouble, lookup_configured, lastDouble]
  cases lastValue name calls with
  | none => rfl
  | some v => cases v <;> rfl

/-! ## What the parameters are -/

/-- The attribute values of the calls fit 32 bits. -/
def Fits (calls : List (String × AttributeValue)) : Prop :=
  ∀ x ∈ calls, ∀ v, x.2 = .uinteger v → v.toNat < 2 ^ 32

/-- The rate is set, or what `MaxTrackedEntries` leaves behind does no harm. -/
def RateUnaffected (calls : List (String × AttributeValue)) : Prop :=
  lastUint "MaxRatePerWindow" calls = none →
    ∀ v, lastUint "MaxTrackedEntries" calls = some v → v = 0 ∨ v = 10

/-- The hop limit is set, or what the attribute read before it leaves behind
does no harm. -/
def HopsUnaffected (calls : List (String × AttributeValue)) : Prop :=
  lastUint "MaxHops" calls = none →
    ∀ v, (lastUint "MaxRatePerWindow" calls).or (lastUint "MaxTrackedEntries" calls) =
      some v → v = 0 ∨ v = 20 ∨ 255 < v

theorem lt_of_lastUint (hfit : Fits calls) {v : ℕ} (hv : lastUint name calls = some v) :
    v < 2 ^ 32 := by
  unfold lastUint at hv
  split at hv
  · rename_i u hu
    obtain ⟨x, hx, hxu⟩ := Option.map_eq_some_iff.mp hu
    have hmem := List.mem_of_mem_filter (List.mem_of_getLast? hx)
    rw [← Option.some.inj hv]
    exact hfit x hmem u hxu
  · cases hv

/-- What the scratch variable holds when `value` was the last one read. -/
def scratch (value : Option ℕ) : UInt32 := value.elim 0 UInt32.ofNat

theorem readUint_scratch (left : Option ℕ) :
    (configured hmacKey calls : CaccSecureHelper Name).readUint name (scratch left) =
      scratch ((lastUint name calls).or left) := by
  rw [readUint_configured]
  cases lastUint name calls <;> rfl

section Scratch

variable {value : Option ℕ} {v default : ℕ}

/-- Every value read fits 32 bits. -/
def FitsValue (value : Option ℕ) : Prop := ∀ v, value = some v → v < 2 ^ 32

theorem fitsValue_or {left : Option ℕ} (hvalue : FitsValue value)
    (hleft : FitsValue left) : FitsValue (value.or left) := by
  intro v hv
  rcases Option.or_eq_some_iff.mp hv with hv | ⟨-, hv⟩
  · exact hvalue v hv
  · exact hleft v hv

theorem toNat_scratch (hfit : FitsValue value) : (scratch value).toNat = value.getD 0 := by
  cases value with
  | none => rfl
  | some v => exact UInt32.toNat_ofNat_of_lt' (hfit v rfl)

theorem scratch_pos_iff (hfit : FitsValue value) : scratch value > 0 ↔ 0 < value.getD 0 := by
  rw [gt_iff_lt, UInt32.lt_iff_toNat_lt, toNat_scratch hfit]
  rfl

theorem chosen_pos (value : Option ℕ) (default : ℕ) :
    chosen (0 < ·) default value =
      if 0 < value.getD 0 then value.getD 0 else default := by
  cases value with
  | none => rfl
  | some v => by_cases hv : 0 < v <;> simp [chosen, Option.filter, hv]

theorem chosen_byte (value : Option ℕ) (default : ℕ) :
    chosen (fun v => 0 < v && v ≤ 255) default value =
      if 0 < value.getD 0 ∧ value.getD 0 ≤ 255 then value.getD 0 else default := by
  cases value with
  | none => rfl
  | some v => by_cases hv : 0 < v ∧ v ≤ 255 <;> simp [chosen, Option.filter, hv]

/-- A positive parameter as the source takes it from the scratch variable. -/
theorem ofNat_chosen_pos (hfit : FitsValue value) :
    (if scratch value > 0 then scratch value else UInt32.ofNat default) =
      UInt32.ofNat (chosen (0 < ·) default value) := by
  simp only [chosen_pos, scratch_pos_iff hfit]
  split_ifs
  · rw [← toNat_scratch hfit]
    exact UInt32.ofNat_toNat.symm
  · rfl

theorem toNat_chosen_pos (hfit : FitsValue value) :
    (if scratch value > 0 then (scratch value).toNat else default) =
      chosen (0 < ·) default value := by
  simp only [chosen_pos, scratch_pos_iff hfit, toNat_scratch hfit]

theorem ofNat_chosen_byte (hfit : FitsValue value) :
    (if scratch value > 0 ∧ scratch value ≤ 255 then (scratch value).toUInt8
      else UInt8.ofNat default) =
      UInt8.ofNat (chosen (fun v => 0 < v && v ≤ 255) default value) := by
  have hle : scratch value ≤ 255 ↔ value.getD 0 ≤ 255 := by
    rw [UInt32.le_iff_toNat_le, toNat_scratch hfit]
    rfl
  simp only [chosen_byte, scratch_pos_iff hfit, hle]
  split_ifs
  · rw [← toNat_scratch hfit]
    rfl
  · rfl

end Scratch

/-- The attribute calls leave the key alone and install nothing. -/
theorem configured_frame :
    (configured hmacKey calls : CaccSecureHelper Name).hmacKey = hmacKey ∧
      (configured hmacKey calls : CaccSecureHelper Name).pipelines = ∅ := by
  induction calls using List.reverseRecOn with
  | nil => exact ⟨rfl, rfl⟩
  | append_singleton calls x ih =>
      rw [configured, List.foldl_append]
      exact ih

@[simp] theorem hmacKey_configured :
    (configured hmacKey calls : CaccSecureHelper Name).hmacKey = hmacKey :=
  configured_frame.1

theorem getPipeline_install :
    ((configured hmacKey calls : CaccSecureHelper Name).install nodeId).getPipeline nodeId =
      some ((configured hmacKey calls).createPipeline nodeId) := by
  rw [install, configured_frame.2, if_neg Finmap.notMem_empty]
  exact Finmap.lookup_insert _

/-- **What is built.** Every unsigned attribute falls back on the one that was
read before it. -/
theorem createPipeline_configured (hfit : Fits calls) :
    let T := lastUint "MaxTrackedEntries" calls
    let R := lastUint "MaxRatePerWindow" calls
    let H := lastUint "MaxHops" calls
    (configured hmacKey calls : CaccSecureHelper Name).createPipeline nodeId =
      .new nodeId hmacKey (chosen (0 < ·) 1000 T)
        (UInt32.ofNat (chosen (0 < ·) 10 (R.or T)))
        ((lastDouble "Alpha" calls).getD (3 / 5))
        (UInt8.ofNat (chosen (fun v => 0 < v && v ≤ 255) 20 (H.or (R.or T)))) := by
  intro T R H
  have hT : FitsValue T := fun v hv => lt_of_lastUint hfit hv
  have hR : FitsValue (R.or T) := fitsValue_or (fun v hv => lt_of_lastUint hfit hv) hT
  have hH : FitsValue (H.or (R.or T)) := fitsValue_or (fun v hv => lt_of_lastUint hfit hv) hR
  have hread : (configured hmacKey calls : CaccSecureHelper Name).readUint
      "MaxTrackedEntries" 0 = scratch T := by
    rw [readUint_configured]
    rfl
  simp only [createPipeline, hread, readUint_scratch, readDouble_configured,
    hmacKey_configured]
  rw [toNat_chosen_pos hT]
  congr 1
  · exact ofNat_chosen_pos hR
  · exact ofNat_chosen_byte hH

/-- Pipelines with other rates or hop limits are other pipelines. -/
theorem new_eq_new_iff {K : ℕ} {alpha : ℚ} {rate rate' : UInt32} {hops hops' : UInt8} :
    (RouterPipeline.new nodeId hmacKey K rate alpha hops : RouterPipeline Name) =
        .new nodeId hmacKey K rate' alpha hops' ↔ rate = rate' ∧ hops = hops' := by
  constructor
  · intro heq
    exact ⟨congrArg (fun p => p.rateLimiter.maxIncrPerWindow) heq,
      congrArg (fun p => p.caccCore.maxHops) heq⟩
  · rintro ⟨rfl, rfl⟩
    rfl

theorem chosen_or_iff {valid : ℕ → Bool} {default : ℕ} {value left : Option ℕ} :
    chosen valid default (value.or left) = chosen valid default value ↔
      (value = none → ∀ v, left = some v → valid v = true → v = default) := by
  cases value with
  | some v => simp
  | none =>
      cases left with
      | none => simp
      | some v => by_cases hv : valid v <;> simp [chosen, Option.filter, hv]

theorem chosen_lt {valid : ℕ → Bool} {default bound : ℕ} {value : Option ℕ}
    (hdefault : default < bound) (hvalue : ∀ v, value = some v → valid v = true → v < bound) :
    chosen valid default value < bound := by
  rw [chosen]
  cases hv : value.filter valid with
  | none => exact hdefault
  | some v =>
      obtain ⟨heq, hvalid⟩ := Option.filter_eq_some_iff.mp hv
      exact hvalue v heq hvalid

theorem rate_eq_iff (hfit : Fits calls) :
    UInt32.ofNat (chosen (0 < ·) 10 ((lastUint "MaxRatePerWindow" calls).or
        (lastUint "MaxTrackedEntries" calls))) =
      UInt32.ofNat (chosen (0 < ·) 10 (lastUint "MaxRatePerWindow" calls)) ↔
    RateUnaffected calls := by
  have hR : FitsValue (lastUint "MaxRatePerWindow" calls) :=
    fun v hv => lt_of_lastUint hfit hv
  have hboth : FitsValue ((lastUint "MaxRatePerWindow" calls).or
      (lastUint "MaxTrackedEntries" calls)) :=
    fitsValue_or hR fun v hv => lt_of_lastUint hfit hv
  have hlt : ∀ value, FitsValue value →
      (UInt32.ofNat (chosen (0 < ·) 10 value)).toNat = chosen (0 < ·) 10 value :=
    fun value hvalue => UInt32.toNat_ofNat_of_lt'
      (chosen_lt (by decide) fun v hv _ => hvalue v hv)
  rw [← UInt32.toNat_inj, hlt _ hboth, hlt _ hR, chosen_or_iff, RateUnaffected]
  refine imp_congr_right fun _ => forall_congr' fun v => imp_congr_right fun _ => ?_
  rw [decide_eq_true_iff]
  omega

theorem hops_eq_iff :
    UInt8.ofNat (chosen (fun v => 0 < v && v ≤ 255) 20 ((lastUint "MaxHops" calls).or
        ((lastUint "MaxRatePerWindow" calls).or (lastUint "MaxTrackedEntries" calls)))) =
      UInt8.ofNat (chosen (fun v => 0 < v && v ≤ 255) 20 (lastUint "MaxHops" calls)) ↔
    HopsUnaffected calls := by
  have hlt : ∀ value, (UInt8.ofNat (chosen (fun v => 0 < v && v ≤ 255) 20 value)).toNat =
      chosen (fun v => 0 < v && v ≤ 255) 20 value := by
    intro value
    apply UInt8.toNat_ofNat_of_lt'
    apply chosen_lt (by decide)
    intro v _ hvalid
    have hsize : UInt8.size = 256 := rfl
    simp only [Bool.and_eq_true, decide_eq_true_iff] at hvalid
    omega
  rw [← UInt8.toNat_inj, hlt, hlt, chosen_or_iff, HopsUnaffected]
  refine imp_congr_right fun _ => forall_congr' fun v => imp_congr_right fun _ => ?_
  rw [Bool.and_eq_true, decide_eq_true_iff, decide_eq_true_iff]
  omega

/-- **When every parameter depends on its own attribute only.** The pipeline
that is installed after any calls of `SetAttribute` is the specified one exactly
when no parameter is read from what another attribute left behind. The cache
size and `alpha` are always as specified. -/
theorem installed_iff (nodeId : UInt32) (hmacKey : List UInt8)
    (calls : List (String × AttributeValue)) (hfit : Fits calls) :
    (((configured hmacKey calls : CaccSecureHelper Name).install nodeId).getPipeline nodeId =
        some (specified nodeId hmacKey calls) ↔
      RateUnaffected calls ∧ HopsUnaffected calls) ∧
    ∃ rate hops, ((configured hmacKey calls : CaccSecureHelper Name).install
        nodeId).getPipeline nodeId =
      some (.new nodeId hmacKey
        (chosen (0 < ·) 1000 (lastUint "MaxTrackedEntries" calls)) rate
        ((lastDouble "Alpha" calls).getD (3 / 5)) hops) := by
  rw [getPipeline_install, createPipeline_configured hfit]
  refine ⟨?_, _, _, rfl⟩
  rw [Option.some_inj, specified, new_eq_new_iff, rate_eq_iff hfit, hops_eq_iff]

/-- All four attributes set, one of them twice. -/
theorem installed_iff_sample :
    ((configured sampleKey [("MaxTrackedEntries", .uinteger 10000),
        ("MaxRatePerWindow", .uinteger 5), ("Alpha", .double (1 / 2)),
        ("MaxHops", .uinteger 300), ("MaxHops", .uinteger 8)] :
      CaccSecureHelper ℕ).install 3).getPipeline 3 =
      some (.new 3 sampleKey 10000 5 (1 / 2) 8) := by
  have hfit : Fits [("MaxTrackedEntries", .uinteger 10000),
      ("MaxRatePerWindow", .uinteger 5), ("Alpha", .double (1 / 2)),
      ("MaxHops", .uinteger 300), ("MaxHops", .uinteger 8)] := by
    simp [Fits]
  exact (installed_iff 3 sampleKey _ hfit).1.mpr (by
    simp [RateUnaffected, HopsUnaffected, lastUint, lastValue])

/-- **One attribute changes three parameters.** With a cache size of 100 alone,
the rate and the hop limit become 100 as well. -/
theorem cache_size_leaks :
    ¬ ∀ (nodeId : UInt32) (hmacKey : List UInt8) (calls : List (String × AttributeValue)),
      Fits calls →
        ((configured hmacKey calls : CaccSecureHelper ℕ).install nodeId).getPipeline nodeId =
          some (specified nodeId hmacKey calls) := by
  intro hclaim
  have hfit : Fits [("MaxTrackedEntries", .uinteger 100)] := by simp [Fits]
  have hbuilt := hclaim 3 sampleKey _ hfit
  rw [getPipeline_install, createPipeline_configured hfit, Option.some_inj, specified,
    new_eq_new_iff] at hbuilt
  have hten := (rate_eq_iff hfit).mp hbuilt.1 (by simp [lastUint, lastValue]) 100
    (by simp [lastUint, lastValue])
  omega

end CaccSecureHelper
end CaccSecure
