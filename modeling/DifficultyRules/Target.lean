/-
# `DifficultyRules.Target` — difficulty targets

A target is a natural number below `2 ^ 256`.  A block meets its target when
its hash, read as a number, is not above it, so a smaller target is harder.
The bound is part of the type.  The work of a target is the expected number
of hashes needed to meet it, and it is what a block adds to its chain's work.
-/
import DifficultyRules.Hex

namespace DifficultyRules

@[ext] structure Target where
  value : Nat
  lt : value < 1 <<< 256
deriving Repr

instance : DecidableEq Target := fun a b =>
  decidable_of_iff (a.value = b.value) Target.ext_iff.symm

namespace Target

instance : LE Target := ⟨fun a b => a.value ≤ b.value⟩

instance : LT Target := ⟨fun a b => a.value < b.value⟩

instance (a b : Target) : Decidable (a ≤ b) := inferInstanceAs (Decidable (a.value ≤ b.value))

instance (a b : Target) : Decidable (a < b) := inferInstanceAs (Decidable (a.value < b.value))

instance : Ord Target := ⟨fun a b => compare a.value b.value⟩

theorem le_def {a b : Target} : a ≤ b ↔ a.value ≤ b.value := Iff.rfl

def ofNat? (value : Nat) : Option Target :=
  if h : value < 1 <<< 256 then some ⟨value, h⟩ else none

/-- `value` capped at `limit`, which is usually the easiest target of a network. -/
def capped (value : Nat) (limit : Target) : Target :=
  ⟨min value limit.value, Nat.lt_of_le_of_lt (Nat.min_le_right ..) limit.lt⟩

@[simp] theorem value_capped (value : Nat) (limit : Target) :
    (capped value limit).value = min value limit.value := rfl

/-- The expected number of hashes needed to meet the target. -/
def work (t : Target) : Nat := (1 <<< 256) / (t.value + 1)

/-- Every target takes at least one hash. -/
theorem work_pos (t : Target) : 0 < t.work :=
  Nat.div_pos t.lt (Nat.succ_pos _)

def text (t : Target) : String := Hex.marked t.value

end Target
end DifficultyRules
