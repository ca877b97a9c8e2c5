/-
# `DifficultyRules.Height` — positions in a chain

A height counts the blocks below a block and has 64 bits.  The successor of
the largest height is that height again (`toNat_next`), so every block has a
next height, and below the largest one heights are ordinary numbers.
-/
namespace DifficultyRules

/-- The number of blocks below a block. -/
@[ext] structure Height where
  toNat : Nat
  lt : toNat < 1 <<< 64
deriving Repr

instance : DecidableEq Height := fun a b =>
  decidable_of_iff (a.toNat = b.toNat) Height.ext_iff.symm

namespace Height

instance : LE Height := ⟨fun a b => a.toNat ≤ b.toNat⟩

instance : LT Height := ⟨fun a b => a.toNat < b.toNat⟩

instance (a b : Height) : Decidable (a ≤ b) := inferInstanceAs (Decidable (a.toNat ≤ b.toNat))

instance (a b : Height) : Decidable (a < b) := inferInstanceAs (Decidable (a.toNat < b.toNat))

theorem le_def {a b : Height} : a ≤ b ↔ a.toNat ≤ b.toNat := Iff.rfl

theorem lt_def {a b : Height} : a < b ↔ a.toNat < b.toNat := Iff.rfl

theorem ne_of_lt {a b : Height} (h : a < b) : a ≠ b := by
  rintro rfl
  exact Nat.lt_irrefl _ h

theorem not_le {a b : Height} : ¬ a ≤ b ↔ b < a := Nat.not_le

def ofNat? (n : Nat) : Option Height :=
  if h : n < 1 <<< 64 then some ⟨n, h⟩ else none

/-- The height of the first block of a complete chain. -/
def genesis : Height := ⟨0, by decide⟩

def top : Height := ⟨1 <<< 64 - 1, by decide⟩

theorem lt_top_of_lt {a b : Height} (h : a < b) : a < top := by
  have hlt : a.toNat < b.toNat := h
  have := b.lt
  show a.toNat < 1 <<< 64 - 1
  omega

def isGenesis (h : Height) : Bool := h.toNat = 0

/-- The height above `h`, or the largest height again. -/
def next (h : Height) : Height := ⟨min (h.toNat + 1) (1 <<< 64 - 1), by omega⟩

theorem toNat_next (h : Height) : h.next.toNat = min (h.toNat + 1) (1 <<< 64 - 1) := rfl

theorem le_next (h : Height) : h ≤ h.next := by
  have := h.lt
  rw [le_def, toNat_next]
  omega

theorem toNat_next_of_lt {h : Height} (hlt : h < top) : h.next.toNat = h.toNat + 1 := by
  have : h.toNat < 1 <<< 64 - 1 := hlt
  rw [toNat_next]
  omega

/-- No height is followed by that of genesis. -/
theorem isGenesis_next (h : Height) : h.next.isGenesis = false := by
  refine decide_eq_false fun hzero => ?_
  rw [toNat_next] at hzero
  omega

/-- Below the largest height, the next height is one more. -/
theorem next_eq_iff {p h : Height} (hh : h < top) : p.next = h ↔ p.toNat + 1 = h.toNat := by
  have : h.toNat < 1 <<< 64 - 1 := hh
  rw [Height.ext_iff, toNat_next]
  omega

/-- The height `distance` blocks below, if there is one. -/
def below? (h : Height) (distance : Nat) : Option Height :=
  if distance ≤ h.toNat then some ⟨h.toNat - distance, by have := h.lt; omega⟩ else none

/-- Whether a block at this height starts an interval of `interval` blocks.  No block starts an
empty interval. -/
def startsInterval (h : Height) (interval : Nat) : Bool :=
  interval ≠ 0 && h.toNat % interval = 0

def text (h : Height) : String := toString h.toNat

end Height
end DifficultyRules
