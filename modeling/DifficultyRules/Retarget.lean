/-
# `DifficultyRules.Retarget` — the target at the start of an interval

At the start of every interval the target is scaled by the time that the last
interval took, as a fraction of the time that it should have taken.  The time
counted is kept within a factor of four of the intended one, and the new target
within the limit.

The time is measured from the first to the last block of the interval, one
spacing short of an interval's length.
-/
import DifficultyRules.Params
import DifficultyRules.Store
import DifficultyRules.Verdict.Demand

namespace DifficultyRules

/-- The target that follows `old` after an interval that took `elapsed` seconds. -/
def Params.scaledTarget (p : Params) (elapsed : Int) (old : Target) : Target :=
  .capped (old.value * bring p.leastTimespan p.mostTimespan elapsed / p.timespan.value) p.limit

namespace Retarget

/-- How far before the last block of an interval its first block is. -/
def depth (p : Params) : Nat := p.interval.value - 1

/-- The next block must have the scaled target. -/
def demand (p : Params) (s : Store) (parent : Block) : Traced Demand := do
  let height := parent.height.next
  let first ← Traced.query (s.back (depth p) parent)
  let first ← Traced.require (.shortHistory .retarget height (depth p)) first
  let elapsed := parent.time.since first.time
  let old ← Traced.ofExcept parent.storedTarget
  let new := p.scaledTarget elapsed old
  Traced.emit (.retargeted height elapsed old new)
  return .target new .scheduled

end Retarget
end DifficultyRules
