/-
# `DifficultyRules.ByteLength` — how many bytes a natural number takes

Difficulty targets are written with a leading size byte, so the number of
base 256 digits of a number is the one measure that the encoding needs.
Zero takes no byte.  The main statement is `byteLength_le_iff`: the byte
length is at most `k` exactly when the number is below one shifted by `k` bytes.
-/
namespace DifficultyRules

/-- The number of base 256 digits of `n`, zero for zero. -/
def byteLength (n : Nat) : Nat :=
  if n = 0 then 0 else n.log2 / 8 + 1

@[simp] theorem byteLength_zero : byteLength 0 = 0 := rfl

theorem byteLength_le_iff {n k : Nat} : byteLength n ≤ k ↔ n < 1 <<< (8 * k) := by
  rw [Nat.one_shiftLeft]
  by_cases h : n = 0
  · subst h
    exact ⟨fun _ => Nat.two_pow_pos _, fun _ => Nat.zero_le k⟩
  · rw [byteLength, if_neg h, ← Nat.log2_lt h]
    omega

theorem lt_byteLength_iff {n k : Nat} : k < byteLength n ↔ 1 <<< (8 * k) ≤ n := by
  have := @byteLength_le_iff n k
  omega

/-- A number is below one shifted by as many bytes as it takes. -/
theorem lt_shift_byteLength (n : Nat) : n < 1 <<< (8 * byteLength n) :=
  byteLength_le_iff.1 (Nat.le_refl _)

theorem byteLength_mono {m n : Nat} (h : m ≤ n) : byteLength m ≤ byteLength n :=
  byteLength_le_iff.2 (Nat.lt_of_le_of_lt h (lt_shift_byteLength n))

end DifficultyRules
