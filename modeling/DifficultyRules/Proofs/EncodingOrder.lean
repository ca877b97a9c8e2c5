/-
# `DifficultyRules.Proofs.EncodingOrder` — encodings have the order of the targets

An encoding is a word of 32 bits, and the difficulty that it stands for is not to be
read off the word by comparing numbers: `0x1c001234` and `0x1b123400` stand for one
target, and a sign makes a word large and stand for nothing.  Preferred encodings are
the exception.  They have the order of the targets that they are rounded to.

The size byte is the high byte of the word, so it is compared first, and a larger
target has no smaller size.

* Where the sizes differ, the larger one outweighs any mantissa
  (`word_ofTarget_lt_of_size_lt`).  This is the case at the byte boundaries.  A target
  whose leading byte would reach the sign takes the next size with a small mantissa,
  but its size alone is already enough.
* Where they agree, the mantissas are the leading bytes of both at the same place
  (`mantissaFor_mono`).

Targets with the same word are those that are rounded alike (`ofTarget_eq_iff`), so
nothing is lost beyond what rounding loses: on preferred encodings, the order of words
is that of normalized targets (`word_ofTarget_le_iff`).
-/
import DifficultyRules.Proofs.Rounding

namespace DifficultyRules
namespace Compact

/-- Of two numbers of one size, the larger has the larger leading bytes. -/
theorem mantissaFor_mono {a b : Nat} (hsize : sizeFor a = sizeFor b) :
    a ≤ b → mantissaFor a ≤ mantissaFor b := by
  intro h
  simp only [mantissaFor, hsize, Nat.shiftRight_eq_div_pow, Nat.shiftLeft_eq]
  exact Nat.div_le_div_right (Nat.mul_le_mul_right _ h)

variable {t u : Target}

/-- A larger size outweighs any mantissa. -/
theorem word_ofTarget_lt_of_size_lt :
    sizeFor t.value < sizeFor u.value → (ofTarget t).word < (ofTarget u).word := by
  intro hsize
  have hmantissa : mantissaFor t.value < 0x800000 := mantissaFor_lt t.value
  simp only [ofTarget]
  omega

/-- A larger target has no smaller word. -/
theorem word_ofTarget_mono : t ≤ u → (ofTarget t).word ≤ (ofTarget u).word := by
  intro h
  have hsize : sizeFor t.value ≤ sizeFor u.value := byteLength_mono (Nat.mul_le_mul_left 2 h)
  rcases Nat.lt_or_eq_of_le hsize with hlt | heq
  · exact Nat.le_of_lt (word_ofTarget_lt_of_size_lt hlt)
  · have hmantissa := mantissaFor_mono heq h
    simp only [ofTarget, heq]
    exact Nat.add_le_add_left hmantissa _

/-- Targets are encoded alike when they are rounded alike. -/
theorem ofTarget_eq_iff : ofTarget t = ofTarget u ↔ t.normalized = u.normalized := by
  constructor
  · intro h
    have ht := toTarget_ofTarget t
    rw [h, toTarget_ofTarget u] at ht
    exact (Except.ok.inj ht).symm
  · intro h
    rw [← t.ofTarget_normalized, h, u.ofTarget_normalized]

theorem word_ofTarget_eq_iff :
    (ofTarget t).word = (ofTarget u).word ↔ t.normalized = u.normalized :=
  Compact.ext_iff.symm.trans ofTarget_eq_iff

/-- The order of encodings is that of the targets that they decode to. -/
theorem word_ofTarget_le_iff :
    (ofTarget t).word ≤ (ofTarget u).word ↔ t.normalized ≤ u.normalized := by
  constructor
  · intro h
    rcases Nat.le_total t.normalized.value u.normalized.value with hle | hge
    · exact hle
    · -- then the words are in the other order too, so they are equal
      have hword := @word_ofTarget_mono u.normalized t.normalized hge
      rw [t.ofTarget_normalized, u.ofTarget_normalized] at hword
      exact Nat.le_of_eq
        (congrArg Target.value (word_ofTarget_eq_iff.1 (Nat.le_antisymm h hword)))
  · intro h
    have hword := word_ofTarget_mono h
    rwa [t.ofTarget_normalized, u.ofTarget_normalized] at hword

/-- **The encoding preserves order.**  The word of the smaller of two targets is not above that of
the larger, and the two are equal exactly when the targets are rounded to the same one. -/
theorem word_ofTarget_ordered (h : t ≤ u) :
    (ofTarget t).word ≤ (ofTarget u).word ∧
      ((ofTarget t).word = (ofTarget u).word ↔ t.normalized = u.normalized) :=
  ⟨word_ofTarget_mono h, word_ofTarget_eq_iff⟩

/-- From three bytes to four: the first target to reach the sign has a word above that of the one
before it, and shares it with the target that is one unit larger. -/
theorem word_ofTarget_ordered_sign :
    let below : Target := ⟨0x7fffff, by decide⟩
    let first : Target := ⟨0x800000, by decide⟩
    let next : Target := ⟨0x800001, by decide⟩
    (ofTarget below).word = 0x037fffff ∧ (ofTarget first).word = 0x04008000 ∧
      (ofTarget below).word ≤ (ofTarget first).word ∧
      (ofTarget below).word ≠ (ofTarget first).word ∧
      (ofTarget first).word ≤ (ofTarget next).word ∧
      (ofTarget first).word = (ofTarget next).word := by
  intro below first next
  obtain ⟨hbelow, hne⟩ := @word_ofTarget_ordered below first (by decide)
  obtain ⟨hnext, heq⟩ := @word_ofTarget_ordered first next (by decide)
  exact ⟨by decide, by decide, hbelow, mt hne.1 (by decide), hnext, heq.2 (by decide)⟩

end Compact
end DifficultyRules
