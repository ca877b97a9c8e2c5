/-
# `DifficultyRules.Params` — the constants of a chain

Every rule reads its constants from one record.  The presets of the three
networks differ in the limit, which is the easiest target, and in the height
from which the sliding window replaces the older rules.  A chain of one's own
is a preset with some fields changed; the types keep the spans positive and
the limit below `2 ^ 256`.
-/
import DifficultyRules.Compact
import DifficultyRules.Height
import DifficultyRules.Network
import DifficultyRules.Span
import DifficultyRules.Timestamp

namespace DifficultyRules

/-- The blocks that start an interval are those at the multiples of its length. -/
theorem Height.startsInterval_iff (h : Height) (interval : Span) :
    h.startsInterval interval.value ↔ interval.value ∣ h.toNat := by
  have hpos : interval.value ≠ 0 := Nat.ne_of_gt interval.pos
  simp [startsInterval, hpos, Nat.dvd_iff_mod_eq_zero]

structure Params where
  network : Network
  /-- The number of blocks between two retargets. -/
  interval : Span
  /-- The seconds that one interval should take. -/
  timespan : Span
  /-- The seconds that one block should take. -/
  spacing : Span
  limit : Target
  /-- The height of the parent from which the sliding window applies. -/
  windowFrom : Height
  /-- Blocks later than this may use the minimal difficulty, where the network allows it. -/
  minimalAfter : Timestamp
deriving DecidableEq, Repr

def Network.limit : Network → Target
  | mainnet | testnet => ⟨0xffff <<< 208, by decide⟩
  | regtest => ⟨0x7fffff <<< 232, by decide⟩

/-- The compact value that a network writes its limit with. -/
def Network.limitBits : Network → Compact
  | mainnet | testnet => ⟨0x1d00ffff, by decide⟩
  | regtest => ⟨0x207fffff, by decide⟩

theorem Network.toTarget_limitBits (n : Network) : n.limitBits.toTarget = .ok n.limit := by
  cases n <;> rfl

/-- The height of the parent from which a network applies the sliding window. -/
def Network.windowFrom : Network → Height
  | mainnet => ⟨504031, by decide⟩
  | testnet => ⟨1188697, by decide⟩
  | regtest => .genesis

namespace Params

/-- The constants of a network: intervals of 2016 blocks and two weeks, ten minutes a block. -/
def preset (network : Network) : Params where
  network := network
  interval := ⟨2016, by decide, by decide⟩
  timespan := ⟨14 * 24 * 60 * 60, by decide, by decide⟩
  spacing := ⟨10 * 60, by decide, by decide⟩
  limit := network.limit
  windowFrom := network.windowFrom
  minimalAfter := ⟨1329264000, by decide⟩

/-- One retarget changes the target by at most this factor. -/
def retargetFactor : Nat := 4

/-- The shortest time that a retarget counts an interval with. -/
def leastTimespan (p : Params) : Nat := p.timespan.value / retargetFactor

/-- The longest time that a retarget counts an interval with. -/
def mostTimespan (p : Params) : Nat := p.timespan.times retargetFactor

theorem leastTimespan_le (p : Params) : p.leastTimespan ≤ p.timespan.value :=
  Nat.div_le_self ..

theorem timespan_le_most (p : Params) : p.timespan.value ≤ p.mostTimespan := by
  have := p.timespan.lt
  rw [mostTimespan, Span.times, retargetFactor]
  omega

theorem leastTimespan_le_most (p : Params) : p.leastTimespan ≤ p.mostTimespan :=
  Nat.le_trans p.leastTimespan_le p.timespan_le_most

end Params
end DifficultyRules
