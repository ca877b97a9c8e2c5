/-
# `DifficultyRules.MinimalDifficulty` — blocks at the limit

A block at the limit has the least difficulty that a network knows.  On the
test network a block may fall back to it when it is more than two spacings
later than its parent.  Three rules concern such blocks.

* `afterGap`: after such a gap the limit is required, and otherwise nothing.
* `comingBack`: without a gap the difficulty returns to that of the nearest
  block which is not in a run of minimal blocks.  A run never reaches past
  genesis or the start of an interval.
* `staying`: on a parent at the limit, a block is at the limit too.
-/
import DifficultyRules.Params
import DifficultyRules.Store.History
import DifficultyRules.Verdict.Demand

namespace DifficultyRules

namespace Params

/-- Whether more than two spacings lie in a gap.  A negative gap never is that long. -/
def stalled (p : Params) (gap : Int) : Bool := (p.spacing.times 2 : Int) < gap

/-- Whether the search for a real difficulty goes on past a block. -/
def inMinimalRun (p : Params) (b : Block) : Bool :=
  !b.height.isGenesis && !b.height.startsInterval p.interval.value && b.bits.encodes p.limit

end Params

namespace MinimalDifficulty

/-- After a long gap the next block must be at the limit. -/
def afterGap (p : Params) (parent : Block) (time : Timestamp) : Traced Demand :=
  if p.stalled (time.since parent.time) then return .target p.limit .minimal
  else return .anything

/-- Soon after its parent, the next block must return to the last real difficulty. -/
def comingBack (p : Params) (s : Store) (parent : Block) (time : Timestamp) : Traced Demand := do
  let gap := time.since parent.time
  if gap < 0 || p.stalled gap then return .anything
  match ← Traced.query (s.nearest (fun b => !p.inMinimalRun b) parent) with
  | none =>
    Traced.emit (.onlyMinimal parent.height.next)
    return .anything
  | some b => return .sameAs b.bits .returned

/-- On a parent at the limit, the next block must be there too. -/
def staying (p : Params) (parent : Block) : Traced Demand :=
  if parent.bits.encodes p.limit then return .sameAs parent.bits .unchanged
  else return .anything

end MinimalDifficulty
end DifficultyRules
