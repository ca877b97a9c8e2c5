/-
# `DifficultyRules.Store` — looking up blocks and their ancestors

All that the rules ask of a chain's storage is to find a block by its name.
`Store` is that one function, and the walks are defined on it: the parent of
a block, and the ancestor some steps back or at a given height.

A walk trusts the store for nothing but the blocks.  It stops without an
answer where history ends, at genesis or at a parent that is not stored, and
it reports an error for a parent whose height is not one below.
-/
import DifficultyRules.Block
import DifficultyRules.Store.Error

namespace DifficultyRules

/-- A source of stored blocks: the block of a name, nothing, or an error. -/
structure Store where
  get : Hash → Except QueryError (Option Block)

namespace Store

/-- The parent of `b`, or nothing at genesis or where stored history ends. -/
def parent (s : Store) (b : Block) : Except QueryError (Option Block) :=
  if b.height.isGenesis then .ok none
  else
    match s.get b.parent with
    | .error e => .error e
    | .ok none => .ok none
    | .ok (some p) =>
      if p.height.next = b.height then .ok (some p)
      else .error (.parentHeight b.id b.height p.height)

/-- The block `steps` parents back, or nothing if history runs out first. -/
def back (s : Store) : Nat → Block → Except QueryError (Option Block)
  | 0, b => .ok (some b)
  | steps + 1, b =>
    match s.parent b with
    | .error e => .error e
    | .ok none => .ok none
    | .ok (some p) => s.back steps p

/-- The ancestor at `height`.  A height above the block's own is refused. -/
def ancestor (s : Store) (b : Block) (height : Height) : Except QueryError (Option Block) :=
  if height ≤ b.height then s.back (b.height.toNat - height.toNat) b
  else .error (.ancestorHeight b.height height)

/-- A parent is one height below, unless the block is at the largest height. -/
theorem next_height_of_parent {s : Store} {b p : Block} (h : s.parent b = .ok (some p)) :
    p.height.next = b.height := by
  simp only [parent] at h
  split at h
  · cases h
  · split at h
    · cases h
    · cases h
    · split at h
      · cases h
        assumption
      · cases h

theorem parent_genesis {s : Store} {b : Block} (h : b.height.isGenesis) :
    s.parent b = .ok none := by
  rw [parent, if_pos h]

@[simp] theorem back_zero (s : Store) (b : Block) : s.back 0 b = .ok (some b) := rfl

/-- A walk can be broken off anywhere and taken up again. -/
theorem back_add (s : Store) (m n : Nat) (b : Block) :
    s.back (m + n) b =
      match s.back m b with
      | .ok (some c) => s.back n c
      | r => r := by
  induction m generalizing b with
  | zero => simp
  | succ m ih =>
    rw [Nat.succ_add, back, back]
    split
    · rfl
    · rfl
    · exact ih _

end Store
end DifficultyRules
