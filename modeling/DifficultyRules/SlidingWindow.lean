/-
# `DifficultyRules.SlidingWindow` — a new target with every block

The target follows the work done over a window of about 144 blocks and the
time that they took.  The work, per target spacing of that time, is the work
that the next block should take, and the target is the one with that work.

Either end of the window is the block with the median time of three, so that a
single wrong block time moves neither.  The time is kept within a half and
twice what 144 blocks should take, and the target within the limit.
-/
import DifficultyRules.Params
import DifficultyRules.Store
import DifficultyRules.Verdict.Demand

namespace DifficultyRules

/-- Of a block, its parent and its grandparent, the one with the middle time.  The grandparent
comes first, and blocks change places only when the later one is strictly earlier in time. -/
def medianBlock (grandparent parent block : Block) : Block :=
  let (a, c) := if block.time < grandparent.time then (block, grandparent) else (grandparent, block)
  let b := if parent.time < a.time then a else parent
  if c.time < b.time then c else b

/-- The block with the middle time among `b` and the two before it, if there are two. -/
def Store.suitable (s : Store) (b : Block) : Except QueryError (Option Block) := do
  let some parent ← s.parent b | return none
  let some grandparent ← s.parent parent | return none
  return some (medianBlock grandparent parent b)

namespace Params

/-- The seconds that a window counts with. -/
def windowTimespan (p : Params) (first last : Block) : Nat :=
  bring (p.spacing.times 72) (p.spacing.times 288) (last.time.since first.time)

/-- The work of a window for each spacing of its time. -/
def windowWork (p : Params) (first last : Block) : Nat :=
  (last.work - first.work) * p.spacing.value / p.windowTimespan first last

/-- The target that takes the work of the window from `first` to `last`. -/
def windowTarget (p : Params) (first last : Block) : Except CheckError Target :=
  if last.height ≤ first.height then .error (.emptyWindow first.height last.height)
  else if p.windowWork first last = 0 then .error (.idleWindow first.height last.height)
  else .ok (.capped ((1 <<< 256) / p.windowWork first last - 1) p.limit)

end Params

namespace SlidingWindow

def length : Nat := 144

/-- How many ancestors take part, all told. -/
def depth : Nat := length + 2

/-- The next block must have the target of the window. -/
def demand (p : Params) (s : Store) (parent : Block) : Traced Demand := do
  let height := parent.height.next
  let short := CheckError.shortHistory .slidingWindow height depth
  let last ← Traced.query (s.suitable parent)
  let last ← Traced.require short last
  let start ← Traced.query (s.back length parent)
  let start ← Traced.require short start
  let first ← Traced.query (s.suitable start)
  let first ← Traced.require short first
  let target ← Traced.ofExcept (p.windowTarget first last)
  Traced.emit (.windowClosed height first.height last.height target)
  return .target target .scheduled

end SlidingWindow
end DifficultyRules
