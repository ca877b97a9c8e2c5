/-
# `DifficultyRules.ProofOfWork` — whether a hash meets a difficulty
-/
import DifficultyRules.Compact
import DifficultyRules.Hash

namespace DifficultyRules

/-- Whether the hash, as a little-endian number, is not above the target of the bits.  Bits that
stand for no target are met by no hash. -/
def Hash.meets (hash : Hash) (bits : Compact) : Bool :=
  match bits.toTarget with
  | .ok t => hash.littleEndian ≤ t.value
  | .error _ => false

end DifficultyRules
