/-
# `DifficultyRules.Store.Error` — what can go wrong with a question about a chain

A store can fail to answer at all (`StorageFault`).  A walk along a chain can
also meet a parent at the wrong height, or be asked for an ancestor above the
block that it starts from.  That a block is not stored is an answer and no
error.
-/
import DifficultyRules.Hash
import DifficultyRules.Height

namespace DifficultyRules

/-- A failure of the storage itself, with its own account of the cause. -/
inductive StorageFault where
  | readFailed (detail : String)
  | corrupted (detail : String)
deriving DecidableEq, Repr

/-- Why a question about a chain has no answer. -/
inductive QueryError where
  | storage (fault : StorageFault)
  /-- The parent of the named block is not one height below it. -/
  | parentHeight (id : Hash) (height parentHeight : Height)
  /-- An ancestor above the block was sought. -/
  | ancestorHeight (blockHeight sought : Height)
deriving DecidableEq, Repr

def StorageFault.message : StorageFault → String
  | readFailed detail => "Failed to read from the block store: " ++ detail
  | corrupted detail => "The block store is corrupted: " ++ detail

def QueryError.message : QueryError → String
  | storage fault => "Blockchain storage error: " ++ fault.message
  | parentHeight id height parent =>
    "Block index of " ++ id.text ++ " at height " ++ height.text ++
      " points to a predecessor at height " ++ parent.text
  | ancestorHeight height sought =>
    "Invalid ancestor height: sought ancestor with height " ++ sought.text ++
      " for block with height " ++ height.text

end DifficultyRules
