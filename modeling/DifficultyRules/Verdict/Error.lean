/-
# `DifficultyRules.Verdict.Error` — why a block is not accepted

An error belongs to one of three classes, and the class decides what may be
done with the block.  A block that violates a rule is bad.  A block whose
history is not known yet may be tried again.  Everything else is a fault on
this side, and says nothing about the block.
-/
import DifficultyRules.Block
import DifficultyRules.Rule
import DifficultyRules.Store.Error
import DifficultyRules.Verdict.Violation

namespace DifficultyRules

inductive CheckError where
  | violation (rule : Rule) (height : Height) (cause : Violation)
  /-- The rule needs more ancestors than are stored. -/
  | shortHistory (rule : Rule) (height : Height) (depth : Nat)
  | query (error : QueryError)
  /-- The bits of a stored block stand for no target. -/
  | storedBits (bits : Compact)
  /-- The last block of a window is not above its first. -/
  | emptyWindow (first last : Height)
  /-- The blocks of a window did no work. -/
  | idleWindow (first last : Height)
  | parentNotFound (parent id : Hash)
  | parentNotRead (parent id : Hash) (error : QueryError)
deriving DecidableEq, Repr

/-- What an error says about the block. -/
inductive ErrorClass where
  /-- The block itself is invalid. -/
  | badBlock
  /-- The block cannot be judged until more of the chain is known. -/
  | missingHistory
  /-- Nothing is known about the block. -/
  | general
deriving DecidableEq, Repr

namespace CheckError

def errorClass : CheckError → ErrorClass
  | violation .. => .badBlock
  | shortHistory .. | parentNotFound .. => .missingHistory
  | query _ | storedBits _ | emptyWindow .. | idleWindow .. | parentNotRead .. => .general

def message : CheckError → String
  | violation rule height cause =>
    "Block at height " ++ height.text ++ " violates the " ++ rule.name ++ " rule: " ++ cause.message
  | shortHistory rule height depth =>
    "The " ++ rule.name ++ " rule needs " ++ toString depth ++
      " ancestors of the block at height " ++ height.text
  | query error => "Block storage error: `" ++ error.message ++ "`"
  | storedBits bits => "Bits of a stored block do not encode a valid target: " ++ bits.text
  | emptyWindow first last =>
    "Empty difficulty adjustment window from height " ++ first.text ++ " to " ++ last.text
  | idleWindow first last => "No work done from height " ++ first.text ++ " to " ++ last.text
  | parentNotFound parent id =>
    "Previous block " ++ parent.text ++ " of block " ++ id.text ++ " not found in database"
  | parentNotRead parent id error =>
    "Error while loading previous block " ++ parent.text ++ " of block " ++ id.text ++
      " with error " ++ error.message

end CheckError

/-- The target of a stored block.  Bits that stand for none are a fault of the store. -/
def Block.storedTarget (b : Block) : Except CheckError Target :=
  match b.bits.toTarget with
  | .ok t => .ok t
  | .error _ => .error (.storedBits b.bits)

end DifficultyRules
