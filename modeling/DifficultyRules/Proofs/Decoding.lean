/-
# `DifficultyRules.Proofs.Decoding` — which compact values decode, and to what

A compact value with the mantissa `m` and the size `s` stands for the number

    m * 256 ^ s / 256 ^ 3

rounded down, whichever way its bytes have to be shifted.  With a size of up to 255 that
can be a very long number, and a value that stands for no target is to be refused without
writing it out.  So the test looks at lengths only.  The bytes of the mantissa, moved up by
as many places as the size says, have to end within 35 bytes, which are the 32 of a target
and the three that are cut off again (`Fits`).

Moving bytes is multiplying by 256, so nothing is lost in that: the test refuses the
numbers from `2 ^ 256` on, and no others (`fits_iff`).  For a mantissa, which has no more
than three bytes, it comes to one threshold of the size for each of them
(`not_fits_iff_thresholds`).  A zero mantissa passes every threshold, and its sign, which
makes any other number negative, means nothing.

The main statement, `toTarget_exact`, says of every word which of the three answers it
gets.
-/
import Mathlib.Algebra.Group.Nat.Defs
import DifficultyRules.Compact

namespace DifficultyRules
namespace Compact

variable {mantissa size : Nat}

/-! ## What a compact value stands for -/

theorem shift_eq_pow (n : Nat) : 2 ^ (8 * n) = 256 ^ n := Nat.pow_mul 2 8 n

/-- A word is its three fields. -/
theorem word_eq (c : Compact) :
    c.word = c.size * 2 ^ 24 + c.signed.toNat * 2 ^ 23 + c.mantissa := by
  have hsign : c.signed.toNat = c.word / 0x800000 % 2 := by
    rw [signed]
    rcases Nat.mod_two_eq_zero_or_one (c.word / 0x800000) with h | h
    · rw [h]
      rfl
    · rw [h]
      rfl
  rw [hsign, size, mantissa]
  omega

/-- Whichever way its bytes are shifted, a compact value stands for one quotient. -/
theorem expand_eq_div (mantissa size : Nat) :
    expand mantissa size = mantissa * 256 ^ size / 256 ^ 3 := by
  rw [expand_eq, Nat.shiftLeft_eq, Nat.shiftRight_eq_div_pow, shift_eq_pow]
  rfl

/-! ## The test for its length -/

/-- A mantissa fits when its bytes, moved up as far as the size says, end within 35. -/
theorem fits_iff_mul_lt : Fits mantissa size ↔ mantissa * 256 ^ size < 256 ^ 35 := by
  by_cases hzero : mantissa = 0
  · rw [hzero, Nat.zero_mul]
    exact iff_of_true (.inl rfl) (Nat.pow_pos (by decide))
  · have hbytes {k : Nat} : byteLength mantissa ≤ k ↔ mantissa < 256 ^ k := by
      rw [byteLength_le_iff, Nat.one_shiftLeft, shift_eq_pow]
    rw [Fits, or_iff_right hzero]
    by_cases hsize : size ≤ 35
    · calc byteLength mantissa + size ≤ 35
          ↔ byteLength mantissa ≤ 35 - size := (Nat.le_sub_iff_add_le hsize).symm
        _ ↔ mantissa < 256 ^ (35 - size) := hbytes
        _ ↔ mantissa * 256 ^ size < 256 ^ (35 - size) * 256 ^ size :=
          (Nat.mul_lt_mul_right (Nat.pow_pos (by decide))).symm
        _ ↔ mantissa * 256 ^ size < 256 ^ 35 := by
          rw [← Nat.pow_add, Nat.sub_add_cancel hsize]
    · -- then a single byte is already too far up
      have hfar : 256 ^ 35 ≤ mantissa * 256 ^ size :=
        calc 256 ^ 35 ≤ 256 ^ size := Nat.pow_le_pow_right (by decide) (by omega)
          _ ≤ mantissa * 256 ^ size := Nat.le_mul_of_pos_left _ (Nat.pos_of_ne_zero hzero)
      exact iff_of_false (by omega) (Nat.not_lt.2 hfar)

/-- **The test is exact**: what fits is what stands for a number of at most 256 bits. -/
theorem fits_iff : Fits mantissa size ↔ mantissa * 256 ^ size / 256 ^ 3 < 2 ^ 256 := by
  have hbytes : 256 ^ 35 = 2 ^ 256 * 256 ^ 3 := by decide
  rw [fits_iff_mul_lt, Nat.div_lt_iff_lt_mul (Nat.pow_pos (by decide)), hbytes]

/-- For the three bytes of a mantissa, the test is one threshold of the size for each. -/
theorem not_fits_iff_thresholds (hmantissa : mantissa < 2 ^ 24) :
    ¬ Fits mantissa size ↔
      mantissa ≠ 0 ∧
        (34 < size ∨ 0xff < mantissa ∧ 33 < size ∨ 0xffff < mantissa ∧ 32 < size) := by
  have hnone := @byteLength_le_iff mantissa 0
  have hone := @byteLength_le_iff mantissa 1
  have htwo := @byteLength_le_iff mantissa 2
  have hthree := @byteLength_le_iff mantissa 3
  rw [Fits]
  omega

/-! ## Decoding -/

/-- What a word decodes to, by the sign and the size of its number. -/
theorem toTarget_eq (c : Compact) :
    c.toTarget =
      if c.mantissa ≠ 0 ∧ c.signed then .error (.negative c)
      else if h : c.mantissa * 256 ^ c.size / 256 ^ 3 < 1 <<< 256 then
        .ok ⟨c.mantissa * 256 ^ c.size / 256 ^ 3, h⟩
      else .error (.tooLarge c) := by
  have hfits : Fits c.mantissa c.size ↔ c.mantissa * 256 ^ c.size / 256 ^ 3 < 1 <<< 256 := by
    rw [fits_iff, Nat.one_shiftLeft]
  rw [toTarget]
  split
  · rfl
  · by_cases h : Fits c.mantissa c.size
    · rw [dif_pos h, dif_pos (hfits.1 h)]
      exact congrArg Except.ok (Target.ext (expand_eq_div ..))
    · rw [dif_neg h, dif_neg (mt hfits.2 h)]

/-- A word decodes to a target exactly if the target is its number, without a sign. -/
theorem toTarget_eq_ok_iff {c : Compact} {t : Target} :
    c.toTarget = .ok t ↔
      ¬ (c.mantissa ≠ 0 ∧ c.signed) ∧ t.value = c.mantissa * 256 ^ c.size / 256 ^ 3 := by
  rw [toTarget_eq]
  by_cases hneg : c.mantissa ≠ 0 ∧ c.signed
  · rw [if_pos hneg]
    exact iff_of_false (fun h => nomatch h) (fun h => h.1 hneg)
  · rw [if_neg hneg, and_iff_right hneg]
    constructor
    · intro h
      split at h
      · cases h
        rfl
      · cases h
    · intro h
      rw [dif_pos (h ▸ t.lt)]
      exact congrArg Except.ok (Target.ext h.symm)

/-- **Decoding refuses the negative and the too large, and nothing else.**  A word has a size byte,
a sign and a mantissa.  It is negative when the sign is set on a mantissa that is not zero, and
otherwise stands for the mantissa moved up by the size less three bytes, if that has no more than
256 bits.  Three thresholds of the size decide whether it has. -/
theorem toTarget_exact (c : Compact) :
    (c.word = c.size * 2 ^ 24 + c.signed.toNat * 2 ^ 23 + c.mantissa ∧
      c.size < 2 ^ 8 ∧ c.mantissa < 2 ^ 23) ∧
    (c.toTarget =
      if c.mantissa ≠ 0 ∧ c.signed then .error (.negative c)
      else if h : c.mantissa * 256 ^ c.size / 256 ^ 3 < 1 <<< 256 then
        .ok ⟨c.mantissa * 256 ^ c.size / 256 ^ 3, h⟩
      else .error (.tooLarge c)) ∧
    (2 ^ 256 ≤ c.mantissa * 256 ^ c.size / 256 ^ 3 ↔
      c.mantissa ≠ 0 ∧
        (34 < c.size ∨ 0xff < c.mantissa ∧ 33 < c.size ∨ 0xffff < c.mantissa ∧ 32 < c.size)) ∧
    ∀ t, c.toTarget = .ok t ↔
      ¬ (c.mantissa ≠ 0 ∧ c.signed) ∧ c.mantissa * 256 ^ c.size / 256 ^ 3 < 2 ^ 256 ∧
        t.value = c.mantissa * 256 ^ c.size / 256 ^ 3 := by
  refine ⟨⟨c.word_eq, c.size_lt, c.mantissa_lt⟩, c.toTarget_eq, ?thresholds, fun t => ?decoded⟩
  case thresholds =>
    have hmantissa : c.mantissa < 2 ^ 24 := Nat.lt_trans c.mantissa_lt (by decide)
    rw [← not_fits_iff_thresholds hmantissa, fits_iff, Nat.not_lt]
  case decoded =>
    rw [toTarget_eq_ok_iff]
    refine and_congr_right fun _ => ⟨fun h => ⟨?_, h⟩, And.right⟩
    rw [← h, ← Nat.one_shiftLeft]
    exact t.lt

/-- Two bytes of mantissa fit with a size of 33, and three do not. -/
example : (⟨0x2100ffff, by decide⟩ : Compact).toTarget = .ok ⟨0xffff <<< 240, by decide⟩ ∧
    (⟨0x21010000, by decide⟩ : Compact).toTarget = .error (.tooLarge ⟨0x21010000, by decide⟩) :=
  ⟨rfl, rfl⟩

end Compact
end DifficultyRules
