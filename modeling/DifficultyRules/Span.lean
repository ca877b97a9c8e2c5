/-
# `DifficultyRules.Span` — how many blocks or seconds something lasts

The rules measure in blocks (the retarget interval) and in seconds (the
timespan of an interval, the spacing of blocks).  Such a span is positive and
has 64 bits, both by its type, so that dividing by one is always meaningful.
A multiple of a span that leaves 64 bits is capped at the largest such number.
An elapsed time can be negative, because block times are not monotonic; it is
brought into a range of spans by `bring`, and then counts as at least zero.
-/
namespace DifficultyRules

/-- A positive number of blocks or of seconds. -/
@[ext] structure Span where
  value : Nat
  pos : 0 < value
  lt : value < 1 <<< 64
deriving Repr

instance : DecidableEq Span := fun a b =>
  decidable_of_iff (a.value = b.value) Span.ext_iff.symm

namespace Span

def ofNat? (n : Nat) : Option Span :=
  if h : 0 < n ∧ n < 1 <<< 64 then some ⟨n, h.1, h.2⟩ else none

/-- The span `k` times, capped at the largest number of 64 bits. -/
def times (s : Span) (k : Nat) : Nat := min (s.value * k) (1 <<< 64 - 1)

theorem times_pos (s : Span) {k : Nat} (hk : 0 < k) : 0 < s.times k := by
  have := Nat.mul_pos s.pos hk
  rw [times]
  omega

theorem times_mono (s : Span) {j k : Nat} (h : j ≤ k) : s.times j ≤ s.times k := by
  have := Nat.mul_le_mul_left s.value h
  simp only [times]
  omega

end Span

/-- The elapsed seconds, brought into the range from `least` to `most`. -/
def bring (least most : Nat) (elapsed : Int) : Nat :=
  max least (min elapsed.toNat most)

theorem least_le_bring (least most : Nat) (elapsed : Int) :
    least ≤ bring least most elapsed := Nat.le_max_left ..

theorem bring_le_most {least most : Nat} (h : least ≤ most) (elapsed : Int) :
    bring least most elapsed ≤ most :=
  Nat.max_le.2 ⟨h, Nat.min_le_right ..⟩

/-- Seconds within the range count as they are. -/
theorem bring_of_le {least most n : Nat} (hleast : least ≤ n) (hmost : n ≤ most) :
    bring least most n = n := by
  rw [bring, Int.toNat_natCast, Nat.min_eq_left hmost, Nat.max_eq_right hleast]

/-- More elapsed seconds never count as fewer. -/
theorem bring_mono (least most : Nat) {a b : Int} (h : a ≤ b) :
    bring least most a ≤ bring least most b := by
  simp only [bring]
  omega

end DifficultyRules
