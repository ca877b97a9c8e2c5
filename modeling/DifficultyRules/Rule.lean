/-
# `DifficultyRules.Rule` — the names of the rules

A difficulty rule says which difficulty a block must have, given the chain
below it.  Which rule holds at a place of the chain is a matter of
`DifficultyRules.Selection`; what each one demands is said in the module named
after it.
-/
namespace DifficultyRules

inductive Rule where
  /-- The target is scaled by how long the last interval took. -/
  | retarget
  /-- The target is eased by a quarter when blocks are slow, and stays put otherwise. -/
  | emergency
  /-- The target follows the work and time of the last 144 blocks. -/
  | slidingWindow
  /-- The minimal difficulty is required after a long gap. -/
  | minimalAfterGap
  /-- After blocks of minimal difficulty, the last real difficulty returns. -/
  | returnFromMinimal
  /-- A chain at minimal difficulty stays there. -/
  | stayMinimal
  /-- Nothing is required. -/
  | unchecked
deriving DecidableEq, Repr

/-- The name that messages call a rule by. -/
def Rule.name : Rule → String
  | retarget => "difficulty transition point"
  | emergency => "emergency difficulty adjustment"
  | slidingWindow => "new difficulty adjustment"
  | minimalAfterGap => "minimal difficulty"
  | returnFromMinimal => "last non minimal difficulty"
  | stayMinimal => "minimal difficulty no change"
  | unchecked => "regtest"

end DifficultyRules
