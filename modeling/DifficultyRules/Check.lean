/-
# `DifficultyRules.Check` — judging a block's difficulty

A header is judged on top of its parent.  `Rule.check` applies one rule,
`checkAll` several in order up to the first that fails, and `checkSelected`
the one rule that holds there.  `checkHeader` finds the parent first.
-/
import DifficultyRules.Emergency
import DifficultyRules.MinimalDifficulty
import DifficultyRules.Retarget
import DifficultyRules.Selection
import DifficultyRules.SlidingWindow

namespace DifficultyRules

/-- What the rule demands of a block of this time. -/
def Rule.demand (p : Params) (s : Store) (parent : Block) (time : Timestamp) :
    Rule → Traced Demand
  | retarget => Retarget.demand p s parent
  | emergency => Emergency.demand p s parent
  | slidingWindow => SlidingWindow.demand p s parent
  | minimalAfterGap => MinimalDifficulty.afterGap p parent time
  | returnFromMinimal => MinimalDifficulty.comingBack p s parent time
  | stayMinimal => MinimalDifficulty.staying p parent
  | unchecked => return .anything

/-- Holds a header against one rule. -/
def Rule.check (p : Params) (s : Store) (parent : Block) (header : Header) (rule : Rule) :
    Traced Unit := do
  let demand ← rule.demand p s parent header.time
  demand.judge rule parent.height.next header.bits

/-- The verdict of one rule: its demand, held against the header's bits. -/
theorem Rule.result_check (p : Params) (s : Store) (parent : Block) (header : Header)
    (rule : Rule) :
    (rule.check p s parent header).result =
      (rule.demand p s parent header.time).result.bind fun d =>
        verdict rule parent.height.next (d.violation? header.bits) := by
  simp only [Rule.check, Traced.result_bind, Demand.result_judge]

/-- Holds a header against rules in order, up to the first that fails. -/
def checkAll (p : Params) (s : Store) (parent : Block) (header : Header) (rules : List Rule) :
    Traced Unit :=
  rules.forM (Rule.check p s parent header)

/-- The rule that holds for a header, with a record of the choice. -/
def selectRule (p : Params) (parent : Block) (header : Header) : Traced Rule := do
  let rule := p.ruleAt parent.height parent.bits header.time
  Traced.emit (.selected rule parent.height.next p.network)
  return rule

/-- Holds a header against the rule that holds for it. -/
def checkSelected (p : Params) (s : Store) (parent : Block) (header : Header) : Traced Unit := do
  let rule ← selectRule p parent header
  checkAll p s parent header [rule]

/-- Choosing the rule has no part in the verdict, which is that of the chosen rule. -/
theorem result_checkSelected (p : Params) (s : Store) (parent : Block) (header : Header) :
    (checkSelected p s parent header).result =
      ((p.ruleAt parent.height parent.bits header.time).check p s parent header).result := by
  have hone (rule : Rule) : checkAll p s parent header [rule] = rule.check p s parent header :=
    bind_pure_unit
  simp only [checkSelected, selectRule, hone, Traced.result_bind, Traced.result_emit,
    Traced.result_pure, Except.bind]

def loadParent (s : Store) (header : Header) : Except CheckError Block :=
  match s.get header.parent with
  | .error e => .error (.parentNotRead header.parent header.id e)
  | .ok none => .error (.parentNotFound header.parent header.id)
  | .ok (some parent) => .ok parent

/-- Finds the parent of a header, and holds the header against the rule that holds for it. -/
def checkHeader (p : Params) (s : Store) (header : Header) : Traced Unit := do
  let parent ← Traced.ofExcept (loadParent s header)
  checkSelected p s parent header

theorem result_checkHeader (p : Params) (s : Store) (header : Header) :
    (checkHeader p s header).result =
      (loadParent s header).bind fun parent => (checkSelected p s parent header).result := by
  simp only [checkHeader, Traced.result_bind, Traced.result_ofExcept]

end DifficultyRules
