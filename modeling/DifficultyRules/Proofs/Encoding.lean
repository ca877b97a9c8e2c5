/-
# `DifficultyRules.Proofs.Encoding` — a target reads back from its encoding

Encoding keeps the three leading bytes of a target, counted so that the sign bit
stays clear.  What has to be checked is that the result decodes at all.  The
sign is clear by construction, and the bytes fit: a size of at most 32 leaves
room for the three bytes of any mantissa, and the size 33 is only taken by a
target that fills 32 bytes, whose mantissa then has two (`fits_mantissaFor`).

The main statement is `toTarget_ofTarget`: an encoded target decodes, and it
reads back normalized.  So a demand for a target is a demand for the bits that
encode it (`sameDifficulty_ofTarget`).
-/
import DifficultyRules.Compact

namespace DifficultyRules
namespace Compact

theorem shiftLeft_lt {v a b c : Nat} (hv : v < 1 <<< a) (h : a + b ≤ c) :
    v <<< b < 1 <<< c := by
  rw [Nat.one_shiftLeft] at hv ⊢
  calc v <<< b = v * 2 ^ b := Nat.shiftLeft_eq v b
    _ < 2 ^ a * 2 ^ b := (Nat.mul_lt_mul_right (Nat.two_pow_pos b)).2 hv
    _ = 2 ^ (a + b) := (Nat.pow_add 2 a b).symm
    _ ≤ 2 ^ c := Nat.pow_le_pow_right (by decide) h

/-- The encoding of a target of 32 bytes keeps two of them. -/
theorem byteLength_mantissaFor_le {value : Nat} (hvalue : value < 1 <<< 256)
    (hsize : sizeFor value = 33) : byteLength (mantissaFor value) ≤ 2 := by
  rw [byteLength_le_iff, mantissaFor, Nat.shiftRight_eq_div_pow,
    Nat.div_lt_iff_lt_mul (Nat.two_pow_pos _), ← Nat.shiftLeft_eq, ← Nat.shiftLeft_add]
  exact shiftLeft_lt hvalue (by omega)

theorem fits_mantissaFor (t : Target) : Fits (mantissaFor t.value) (sizeFor t.value) := by
  have hsize : sizeFor t.value ≤ 33 := sizeFor_le t
  have hmantissa : byteLength (mantissaFor t.value) ≤ 3 := by
    refine byteLength_le_iff.2 (Nat.lt_trans (mantissaFor_lt t.value) ?_)
    decide
  refine .inr ?_
  by_cases hfull : sizeFor t.value = 33
  · have := byteLength_mantissaFor_le t.lt hfull
    omega
  · omega

/-- **An encoded target decodes to what it is rounded to.** -/
theorem toTarget_ofTarget (t : Target) : (ofTarget t).toTarget = .ok t.normalized := by
  have hfits : Fits (ofTarget t).mantissa (ofTarget t).size := by
    rw [mantissa_ofTarget, size_ofTarget]
    exact fits_mantissaFor t
  rw [toTarget, if_neg (by simp), dif_pos hfits]
  congr 1
  exact Target.ext (by simp [Target.normalized])

/-- To compare with a computed target is to compare with the bits that it is written in. -/
theorem sameDifficulty_ofTarget (c : Compact) (t : Target) :
    c.sameDifficulty (ofTarget t) = c.encodes t := by
  rw [sameDifficulty, encodes, toTarget_ofTarget]
  cases c.toTarget with
  | error e => rfl
  | ok s => rfl

end Compact
end DifficultyRules
