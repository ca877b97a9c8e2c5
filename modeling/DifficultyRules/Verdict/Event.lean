/-
# `DifficultyRules.Verdict.Event` — what a check reports about its course

A check leaves a log.  Each record is kept as the event that it tells of, and
its level and wording are functions of the event.  Events are told of the
height that the checked block would have.  A rejection is the only warning.
-/
import DifficultyRules.Network
import DifficultyRules.Rule
import DifficultyRules.Height
import DifficultyRules.Verdict.Violation

namespace DifficultyRules

inductive LogLevel where
  | trace
  | debug
  | warn
deriving DecidableEq, Repr

inductive Event where
  | selected (rule : Rule) (height : Height) (network : Network)
  | retargeted (height : Height) (elapsed : Int) (old new : Target)
  /-- The rule has too little history, and lets the block pass. -/
  | historyTooShort (rule : Rule) (height : Height)
  | eased (height : Height) (gap : Int) (target : Target)
  | windowClosed (height first last : Height) (target : Target)
  /-- History ends before a block of real difficulty, and the block passes. -/
  | onlyMinimal (height : Height)
  | rejected (rule : Rule) (height : Height) (cause : Violation)
deriving DecidableEq, Repr

namespace Event

def level : Event → LogLevel
  | selected .. | historyTooShort .. | onlyMinimal _ => .trace
  | retargeted .. | eased .. | windowClosed .. => .debug
  | rejected .. => .warn

def text : Event → String
  | selected rule height network =>
    "Selected the " ++ rule.name ++ " rule for the block at height " ++ height.text ++ " on " ++
      network.name
  | retargeted height elapsed old new =>
    "Retarget at height " ++ height.text ++ ": timespan " ++ toString elapsed ++ "s, target " ++
      old.text ++ " -> " ++ new.text
  | historyTooShort rule height =>
    "Not enough history for the " ++ rule.name ++ " rule at height " ++ height.text ++ ", accepting"
  | eased height gap target =>
    "Emergency difficulty adjustment at height " ++ height.text ++ ": median time gap " ++
      toString gap ++ "s, target " ++ target.text
  | windowClosed height first last target =>
    "New difficulty adjustment at height " ++ height.text ++ ": window " ++ first.text ++ ".." ++
      last.text ++ ", target " ++ target.text
  | onlyMinimal height =>
    "History ended inside a minimal difficulty run at height " ++ height.text ++ ", accepting"
  | rejected rule height cause =>
    "Block at height " ++ height.text ++ " rejected by the " ++ rule.name ++ " rule: " ++
      cause.message

end Event
end DifficultyRules
