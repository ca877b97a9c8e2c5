/-
# `DifficultyRules.Selection` — which rule holds where

The rule for a block depends on the network, on the height and difficulty of
its parent and on its own time, and on nothing else.
-/
import DifficultyRules.Params
import DifficultyRules.Rule

namespace DifficultyRules
namespace Params

/-- Whether a block of this time may fall back to the minimal difficulty. -/
def minimalAllowed (p : Params) (time : Timestamp) : Bool :=
  p.network.allowsMinimalDifficulty && p.minimalAfter < time

/-- The rule for a block of this time on a parent of this height and difficulty. -/
def ruleAt (p : Params) (height : Height) (bits : Compact) (time : Timestamp) : Rule :=
  if p.network.skipsDifficultyChecks then .unchecked
  else if p.windowFrom ≤ height then
    if p.minimalAllowed time then .minimalAfterGap else .slidingWindow
  else if height.next.startsInterval p.interval.value then .retarget
  else if p.minimalAllowed time then .returnFromMinimal
  else if bits.encodes p.limit then .stayMinimal
  else .emergency

end Params
end DifficultyRules
