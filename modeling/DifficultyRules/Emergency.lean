/-
# `DifficultyRules.Emergency` — an easier target when blocks are slow

Between retargets the difficulty stays put unless the last six blocks were
very slow.  How slow is measured between median times: when the median time
has moved twelve hours or more over six blocks, the target is eased by a
quarter of itself, up to the limit.

Both median times are taken over full spans of eleven blocks, so the rule looks
sixteen blocks back.  Where history is shorter, it lets every block pass.
-/
import DifficultyRules.MedianTime
import DifficultyRules.Params
import DifficultyRules.Verdict.Demand

namespace DifficultyRules

/-- The target, eased by a quarter up to the limit. -/
def Params.easedTarget (p : Params) (t : Target) : Target :=
  .capped (t.value + t.value / 4) p.limit

namespace Emergency

/-- Over how many blocks the movement of the median time is measured. -/
def reach : Nat := 6

/-- How many ancestors take part, all told. -/
def depth : Nat := reach + 10

/-- From how many seconds on the last blocks were slow. -/
def slowGap : Int := 12 * 60 * 60

/-- How far the median time has moved over the last blocks. -/
def gap (s : Store) (parent : Block) : Traced Int := do
  let earlier ← Traced.query (s.back reach parent)
  let earlier ← Traced.require (.shortHistory .emergency parent.height.next reach) earlier
  let later ← Traced.query (s.medianTime parent)
  let earlier ← Traced.query (s.medianTime earlier)
  return later.since earlier

/-- After slow blocks the next block must have the eased target, and else its parent's. -/
def demand (p : Params) (s : Store) (parent : Block) : Traced Demand := do
  let height := parent.height.next
  match ← Traced.query (s.back depth parent) with
  | none =>
    Traced.emit (.historyTooShort .emergency height)
    return .anything
  | some _ =>
    let gap ← gap s parent
    if slowGap ≤ gap then
      let old ← Traced.ofExcept parent.storedTarget
      let eased := p.easedTarget old
      Traced.emit (.eased height gap eased)
      return .target eased .reduced
    else
      return .sameAs parent.bits .unchanged

end Emergency
end DifficultyRules
