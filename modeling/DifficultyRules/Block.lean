/-
# `DifficultyRules.Block` — headers, and blocks with their place in a chain

A header is what a candidate brings along: its name, its parent's name, its
time and its difficulty in compact form.  A stored block adds what follows
from its place in the chain: the height, and the work of the chain up to and
including the block.
-/
import DifficultyRules.Compact
import DifficultyRules.Hash
import DifficultyRules.Height
import DifficultyRules.Timestamp

namespace DifficultyRules

structure Header where
  id : Hash
  parent : Hash
  time : Timestamp
  bits : Compact
deriving DecidableEq, Repr

structure Block extends Header where
  height : Height
  /-- The work of the chain up to and including this block. -/
  work : Nat
deriving DecidableEq, Repr

end DifficultyRules
