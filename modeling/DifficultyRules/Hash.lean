/-
# `DifficultyRules.Hash` — 32-byte hashes, which name blocks

A hash is 32 bytes, kept as the number that its bytes spell with the first
byte most significant.  Ordering these numbers is ordering the byte strings,
and the hash is shown as the 64 digits of that number.

Proof of work reads the same bytes the other way around, with the first byte
least significant: `Hash.littleEndian` reverses the bytes.
-/
import DifficultyRules.Hex

namespace DifficultyRules

@[ext] structure Hash where
  value : Nat
  lt : value < 1 <<< 256
deriving Repr

instance : DecidableEq Hash := fun a b =>
  decidable_of_iff (a.value = b.value) Hash.ext_iff.symm

/-- The lowest `count` bytes of `n`, in reverse order. -/
def reverseBytes : Nat → Nat → Nat
  | 0, _ => 0
  | count + 1, n => (n % 256) <<< (8 * count) + reverseBytes count (n / 256)

theorem reverseBytes_lt (count n : Nat) : reverseBytes count n < 1 <<< (8 * count) := by
  rw [Nat.one_shiftLeft]
  induction count generalizing n with
  | zero => simp [reverseBytes]
  | succ count ih =>
    have hb : n % 256 * 2 ^ (8 * count) ≤ 255 * 2 ^ (8 * count) :=
      Nat.mul_le_mul_right _ (by omega)
    have hp : 2 ^ (8 * (count + 1)) = 2 ^ (8 * count) * 256 := Nat.pow_add 2 (8 * count) 8
    have := ih (n / 256)
    rw [reverseBytes, Nat.shiftLeft_eq]
    omega

namespace Hash

instance : Ord Hash := ⟨fun a b => compare a.value b.value⟩

/-- The hash whose bytes spell this number, if it has at most 32 of them. -/
def ofNat? (n : Nat) : Option Hash :=
  if h : n < 1 <<< 256 then some ⟨n, h⟩ else none

def zero : Hash := ⟨0, by decide⟩

/-- The hash whose last eight bytes spell a 64-bit number and whose others are zero. -/
def ofWord (n : Nat) (h : n < 1 <<< 64) : Hash := ⟨n, Nat.lt_trans h (by decide)⟩

/-- The number that the bytes spell with the first byte least significant. -/
def littleEndian (h : Hash) : Nat := reverseBytes 32 h.value

theorem littleEndian_lt (h : Hash) : h.littleEndian < 1 <<< 256 := reverseBytes_lt 32 h.value

/-- The 64 digits of the bytes in order. -/
def text (h : Hash) : String := Hex.padded 64 h.value

def debugText (h : Hash) : String := "Id\x7b" ++ h.text ++ "\x7d"

end Hash
end DifficultyRules
