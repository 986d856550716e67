import Mathlib.Data.Rat.Lemmas
import Mathlib.Algebra.Order.Ring.Unbundled.Rat
import Mathlib.Data.Stream.Defs

/-!
# Equation (1) and Algorithm 5: the caching decision

Doubles are exact rationals. The generator behind `decide` is one per thread
and shared by all routers; it is the stream of the draws still to come.
-/

namespace CaccSecure

/-- The draws that the random generator has not given out yet. -/
abbrev Rng := Stream' ℚ

structure CaccCore where
  alpha : ℚ
  maxHops : UInt8
  lastP : ℚ
  lastR : ℚ
deriving DecidableEq

namespace CaccCore

/-- The constructor clamps `alpha` to `[0, 1]`. -/
def new (alpha : ℚ) (maxHops : UInt8) : CaccCore where
  alpha := if alpha < 0 ∨ alpha > 1 then max 0 (min 1 alpha) else alpha
  maxHops := maxHops
  lastP := 0
  lastR := 0

/-- Equation (1). At `phEff = -2`, which no packet has, the division by 0 gives 0 here
and an infinity in the source. -/
def probability (core : CaccCore) (phEff rhcEff : ℚ) : ℚ :=
  let popularityComponent := 1 - 1 / (phEff + 2)
  let localityComponent := rhcEff / ((core.maxHops.toNat : ℚ) + 1)
  let p := core.alpha * popularityComponent + (1 - core.alpha) * localityComponent
  max 0 (min 1 p)

/-- Algorithm 5. -/
def decide (core : CaccCore) (rng : Rng) (phEff rhcEff : ℚ) :
    Bool × CaccCore × Rng :=
  let rhcIncremented := rhcEff + 1
  let lastP := core.probability phEff rhcIncremented
  let lastR := rng.head
  let shouldCache := Decidable.decide (lastR ≤ lastP)
  (shouldCache, { core with lastP := lastP, lastR := lastR }, rng.tail)

end CaccCore
end CaccSecure
