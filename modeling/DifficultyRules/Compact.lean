/-
# `DifficultyRules.Compact` — targets in 32 bits

A header carries its target in 32 bits.  The high byte is a size in bytes, the
low 23 bits are a mantissa, and bit 23 is a sign.  The mantissa holds the three
leading bytes of a number of that size, so the encoded number is the mantissa
shifted by the size less three bytes, to the right for sizes below three.

Encoding keeps the leading bytes only, so it loses precision, and several
compact values stand for one target.  Two values are therefore compared by what
they decode to (`Compact.sameDifficulty`, `Compact.encodes`), never as words.

The sign bit of an encoded target stays clear because the size is taken from
twice the target (`Compact.ofTarget`): a leading byte of `0x80` or more makes
the size one larger and gives up the lowest byte of the mantissa.
-/
import DifficultyRules.ByteLength
import DifficultyRules.Target

namespace DifficultyRules

/-- The compact encoding of a target, as carried in block headers. -/
@[ext] structure Compact where
  word : Nat
  lt : word < 1 <<< 32
deriving Repr

instance : DecidableEq Compact := fun a b =>
  decidable_of_iff (a.word = b.word) Compact.ext_iff.symm

namespace Compact

/-- Why a compact value stands for no target. -/
inductive DecodeError where
  | negative (bits : Compact)
  | tooLarge (bits : Compact)
deriving DecidableEq, Repr

def ofNat? (word : Nat) : Option Compact :=
  if h : word < 1 <<< 32 then some ⟨word, h⟩ else none

/-- Eight digits behind the marker `0x`. -/
def text (c : Compact) : String := "0x" ++ Hex.padded 8 c.word

def debugText (c : Compact) : String := "Compact(" ++ c.text ++ ")"

def size (c : Compact) : Nat := c.word / 0x1000000

/-- The low 23 bits. -/
def mantissa (c : Compact) : Nat := c.word % 0x800000

/-- Whether bit 23, the sign, is set. -/
def signed (c : Compact) : Bool := c.word / 0x800000 % 2 = 1

/-! ## Decoding -/

/-- The number whose three leading bytes, at the given size, are `mantissa`. -/
def expand (mantissa size : Nat) : Nat :=
  if size ≤ 3 then mantissa >>> (8 * (3 - size)) else mantissa <<< (8 * (size - 3))

/-- One formula for both shifts. -/
theorem expand_eq (mantissa size : Nat) :
    expand mantissa size = mantissa <<< (8 * size) >>> 24 := by
  rw [expand]
  rw [Nat.shiftLeft_eq _ (8 * size), Nat.shiftRight_eq_div_pow _ 24]
  split
  · next h =>
    have : 2 ^ 24 = 2 ^ (8 * (3 - size)) * 2 ^ (8 * size) := by
      rw [← Nat.pow_add]
      congr 1
      omega
    rw [this, Nat.mul_div_mul_right _ _ (Nat.two_pow_pos _), Nat.shiftRight_eq_div_pow]
  · next h =>
    have : 2 ^ (8 * size) = 2 ^ (8 * (size - 3)) * 2 ^ 24 := by
      rw [← Nat.pow_add]
      congr 1
      omega
    rw [this, ← Nat.mul_assoc, Nat.mul_div_cancel _ (Nat.two_pow_pos _), Nat.shiftLeft_eq]

/-- A mantissa and size whose bytes, all told, end within the 32 of a target. -/
def Fits (mantissa size : Nat) : Prop :=
  mantissa = 0 ∨ byteLength mantissa + size ≤ 35

instance (mantissa size : Nat) : Decidable (Fits mantissa size) :=
  inferInstanceAs (Decidable (_ ∨ _))

theorem expand_lt_of_fits {mantissa size : Nat} (hm : mantissa < 1 <<< 256)
    (h : Fits mantissa size) : expand mantissa size < 1 <<< 256 := by
  rw [expand]
  split
  · rw [Nat.shiftRight_eq_div_pow]
    exact Nat.lt_of_le_of_lt (Nat.div_le_self ..) hm
  · next hs =>
    rcases h with h | h
    · simp [h]
    · have hb := lt_shift_byteLength mantissa
      rw [Nat.one_shiftLeft] at hb ⊢
      rw [Nat.shiftLeft_eq]
      calc mantissa * 2 ^ (8 * (size - 3))
          < 2 ^ (8 * byteLength mantissa) * 2 ^ (8 * (size - 3)) :=
            (Nat.mul_lt_mul_right (Nat.two_pow_pos _)).2 hb
        _ = 2 ^ (8 * byteLength mantissa + 8 * (size - 3)) := (Nat.pow_add ..).symm
        _ ≤ 2 ^ 256 := Nat.pow_le_pow_right (by decide) (by omega)

theorem mantissa_lt (c : Compact) : c.mantissa < 0x800000 := Nat.mod_lt _ (by decide)

theorem size_lt (c : Compact) : c.size < 256 := by
  have := c.lt
  rw [size]
  omega

/-- The target a compact value stands for.  A set sign is refused unless the mantissa is zero,
and so is a number that needs more than 256 bits. -/
def toTarget (c : Compact) : Except DecodeError Target :=
  if c.mantissa ≠ 0 ∧ c.signed then .error (.negative c)
  else if h : Fits c.mantissa c.size then
    .ok ⟨expand c.mantissa c.size,
      expand_lt_of_fits (Nat.lt_trans c.mantissa_lt (by decide)) h⟩
  else .error (.tooLarge c)

def decodes (c : Compact) : Bool := c.toTarget.isOk

theorem decodes_iff {c : Compact} : c.decodes ↔ ∃ t, c.toTarget = .ok t := by
  rw [decodes]
  cases c.toTarget <;> simp [Except.isOk, Except.toBool]

/-! ## Encoding -/

/-- The size byte of an encoded number: the byte length of its double. -/
def sizeFor (value : Nat) : Nat := byteLength (2 * value)

/-- The three leading bytes of `value` at the size that it is encoded with. -/
def mantissaFor (value : Nat) : Nat := value <<< 24 >>> (8 * sizeFor value)

/-- Doubling before measuring keeps the sign bit clear. -/
theorem mantissaFor_lt (value : Nat) : mantissaFor value < 0x800000 := by
  have h : 2 * value < 1 <<< (8 * sizeFor value) := lt_shift_byteLength _
  rw [Nat.one_shiftLeft] at h
  rw [mantissaFor]
  rw [Nat.shiftRight_eq_div_pow, Nat.div_lt_iff_lt_mul (Nat.two_pow_pos _), Nat.shiftLeft_eq]
  omega

theorem sizeFor_le (t : Target) : sizeFor t.value ≤ 33 := by
  have := t.lt
  refine byteLength_le_iff.2 ?_
  omega

/-- The compact encoding of a target: its leading bytes, rounded down. -/
def ofTarget (t : Target) : Compact :=
  ⟨sizeFor t.value * 0x1000000 + mantissaFor t.value, by
    have := mantissaFor_lt t.value
    have := sizeFor_le t
    omega⟩

@[simp] theorem size_ofTarget (t : Target) : (ofTarget t).size = sizeFor t.value := by
  have := mantissaFor_lt t.value
  simp only [size, ofTarget]
  omega

@[simp] theorem mantissa_ofTarget (t : Target) :
    (ofTarget t).mantissa = mantissaFor t.value := by
  have := mantissaFor_lt t.value
  simp only [mantissa, ofTarget]
  omega

@[simp] theorem signed_ofTarget (t : Target) : (ofTarget t).signed = false := by
  have := mantissaFor_lt t.value
  refine decide_eq_false fun h => ?_
  simp only [ofTarget] at h
  omega

/-- Rounding to the leading bytes never makes a number larger. -/
theorem expand_mantissaFor_le (value : Nat) :
    expand (mantissaFor value) (sizeFor value) ≤ value := by
  rw [expand_eq, mantissaFor]
  simp only [Nat.shiftLeft_eq, Nat.shiftRight_eq_div_pow]
  calc value * 2 ^ 24 / 2 ^ (8 * sizeFor value) * 2 ^ (8 * sizeFor value) / 2 ^ 24
      ≤ value * 2 ^ 24 / 2 ^ 24 := Nat.div_le_div_right (Nat.div_mul_le_self ..)
    _ = value := Nat.mul_div_cancel _ (Nat.two_pow_pos _)

end Compact

/-- The target as it reads back after being encoded into a header. -/
def Target.normalized (t : Target) : Target :=
  ⟨Compact.expand (Compact.mantissaFor t.value) (Compact.sizeFor t.value),
    Nat.lt_of_le_of_lt (Compact.expand_mantissaFor_le _) t.lt⟩

/-- A target is no easier after the encoding. -/
theorem Target.normalized_le (t : Target) : t.normalized ≤ t := Compact.expand_mantissaFor_le _

namespace Compact

/-! ## Comparing -/

/-- Whether both values decode, and to the same target. -/
def sameDifficulty (a b : Compact) : Bool :=
  match a.toTarget, b.toTarget with
  | .ok s, .ok t => s = t
  | _, _ => false

/-- Whether the value is the difficulty that `t` takes once it is put in a header. -/
def encodes (c : Compact) (t : Target) : Bool :=
  match c.toTarget with
  | .ok s => s = t.normalized
  | .error _ => false

theorem sameDifficulty_iff {a b : Compact} :
    a.sameDifficulty b ↔ ∃ t, a.toTarget = .ok t ∧ b.toTarget = .ok t := by
  rw [sameDifficulty]
  cases a.toTarget <;> cases b.toTarget <;> simp [eq_comm]

/-- Next to bits that decode, the same difficulty is the same target. -/
theorem sameDifficulty_iff_of_toTarget {a b : Compact} {t : Target} (hb : b.toTarget = .ok t) :
    a.sameDifficulty b ↔ a.toTarget = .ok t := by
  rw [sameDifficulty_iff, hb]
  constructor
  · rintro ⟨u, ha, hu⟩
    rw [ha, ← hu]
  · intro ha
    exact ⟨t, ha, rfl⟩

theorem sameDifficulty_symm {a b : Compact} (h : a.sameDifficulty b) : b.sameDifficulty a := by
  obtain ⟨t, ha, hb⟩ := sameDifficulty_iff.1 h
  exact sameDifficulty_iff.2 ⟨t, hb, ha⟩

theorem sameDifficulty_trans {a b c : Compact} (hab : a.sameDifficulty b)
    (hbc : b.sameDifficulty c) : a.sameDifficulty c := by
  obtain ⟨t, ha, hb⟩ := sameDifficulty_iff.1 hab
  obtain ⟨t', hb', hc⟩ := sameDifficulty_iff.1 hbc
  rw [hb] at hb'
  cases hb'
  exact sameDifficulty_iff.2 ⟨t, ha, hc⟩

theorem encodes_iff {c : Compact} {t : Target} :
    c.encodes t ↔ c.toTarget = .ok t.normalized := by
  rw [encodes]
  cases c.toTarget <;> simp

def DecodeError.message : DecodeError → String
  | .negative c => "Compact target " ++ c.text ++ " encodes a negative number"
  | .tooLarge c => "Compact target " ++ c.text ++ " does not fit in 256 bits"

end Compact
end DifficultyRules
