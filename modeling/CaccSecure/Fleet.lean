import CaccSecure.Books
import CaccSecure.DroppedPackets
import Mathlib.Algebra.BigOperators.Group.Finset.Basic
import Mathlib.Data.Fintype.Basic

/-!
# The pipelines of a script

The pipelines that a simulation script drives through its hook. They share the
random generator of their caching decisions, which belongs to the thread.
-/

namespace CaccSecure

structure Fleet (ι Name : Type) [DecidableEq Name] where
  pipelines : ι → RouterPipeline Name
  rng : Rng

/-- A call of a hook: the pipeline it is given, its other arguments, and what the
clocks show. -/
structure HookCall (ι Name : Type) where
  pipeline : ι
  arrival : Arrival Name

namespace Fleet

variable {ι Name : Type} [DecidableEq ι] [DecidableEq Name]

/-- `pipeline->process(...)`. -/
def process (P : Primitives Name) (f : Fleet ι Name) (i : ι) (a : Arrival Name) :
    Outcome × Fleet ι Name :=
  let r := RouterPipeline.process P (f.pipelines i, f.rng) a
  (r.1, ⟨Function.update f.pipelines i r.2.1, r.2.2⟩)

/-- Every pipeline is as its constructor left it. -/
def Fresh (f : Fleet ι Name) : Prop :=
  ∀ i, ∃ nodeId hmacKey maxTrackedEntries maxRatePerWindow alpha maxHops,
    f.pipelines i =
      .new nodeId hmacKey maxTrackedEntries maxRatePerWindow alpha maxHops

variable {P : Primitives Name} {f : Fleet ι Name} {i : ι} {a : Arrival Name}

theorem pipelines_process_self : (f.process P i a).2.pipelines i =
    (RouterPipeline.process P (f.pipelines i, f.rng) a).2.1 :=
  Function.update_self _ _ _

theorem pipelines_process_of_ne {j : ι} (hj : j ≠ i) :
    (f.process P i a).2.pipelines j = f.pipelines j := Function.update_of_ne hj _ _

/-- No packet changes a key. -/
theorem security_process {j : ι} :
    ((f.process P i a).2.pipelines j).security = (f.pipelines j).security := by
  rcases eq_or_ne j i with rfl | hj
  · rw [pipelines_process_self, RouterPipeline.security_process]
  · rw [pipelines_process_of_ne hj]

theorem forwards_process : (f.process P i a).1.forwards = (f.pipelines i).passes P a :=
  RouterPipeline.forwards_process

theorem dropped_iff : (f.process P i a).1.Dropped ↔ (f.pipelines i).passes P a = false :=
  RouterPipeline.dropped_iff

theorem stats_process_self : ((f.process P i a).2.pipelines i).stats =
    (f.pipelines i).stats.record (f.process P i a).1 := by
  rw [pipelines_process_self, RouterPipeline.stats_process]
  rfl

/-! ## The sum of a counter -/

variable [Fintype ι]

/-- The sum of `stats().rateLimited` over the pipelines, in 64 bits. -/
def rateLimited (f : Fleet ι Name) : UInt64 :=
  .ofNat (∑ i, (f.pipelines i).stats.rateLimited.toNat)

omit [DecidableEq ι] in
theorem rateLimited_of_fresh (hf : f.Fresh) : f.rateLimited = 0 := by
  have hzero : ∀ i, (f.pipelines i).stats.rateLimited.toNat = 0 := by
    intro i
    obtain ⟨_, _, _, _, _, _, heq⟩ := hf i
    rw [heq]
    rfl
  simp [rateLimited, hzero]

/-- The sum without the pipeline `i`, and its counter. -/
theorem rateLimited_eq_add (f : Fleet ι Name) (i : ι) : f.rateLimited =
    .ofNat (∑ j ∈ Finset.univ.erase i, (f.pipelines j).stats.rateLimited.toNat) +
      (f.pipelines i).stats.rateLimited := by
  rw [rateLimited, ← Finset.sum_erase_add _ _ (Finset.mem_univ i), UInt64.ofNat_add,
    UInt64.ofNat_toNat]

/-- A packet adds to the sum what it adds to the counter of its pipeline. -/
theorem rateLimited_process : (f.process P i a).2.rateLimited =
    if (f.process P i a).1.rateLimited then f.rateLimited + 1 else f.rateLimited := by
  have hothers : ∀ j ∈ Finset.univ.erase i,
      ((f.process P i a).2.pipelines j).stats.rateLimited.toNat =
        (f.pipelines j).stats.rateLimited.toNat := by
    intro j hj
    simp only [process, Function.update_of_ne (Finset.ne_of_mem_erase hj)]
  rw [rateLimited_eq_add _ i, rateLimited_eq_add f i, Finset.sum_congr rfl hothers,
    stats_process_self]
  simp only [PipelineStats.record]
  split_ifs
  · rw [UInt64.add_assoc]
  · rfl

end Fleet

/-- One new pipeline, with one unclamped packet a minute for each name. -/
def sampleFleet : Fleet Unit (List UInt8) := ⟨fun _ => (sampleRouter 1).1, Stream'.const 1⟩

theorem fresh_sampleFleet : sampleFleet.Fresh := fun _ => ⟨_, _, _, _, _, _, rfl⟩

end CaccSecure
