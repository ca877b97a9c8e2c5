/-
# `DifficultyRules.Timestamp` — block times

A block carries its time as a 32-bit number of seconds.  Times along a chain
are not monotonic, so the difference of two of them is signed.
-/
namespace DifficultyRules

/-- Seconds since the epoch, as carried in block headers. -/
@[ext] structure Timestamp where
  seconds : Nat
  lt : seconds < 1 <<< 32
deriving Repr

instance : DecidableEq Timestamp := fun a b =>
  decidable_of_iff (a.seconds = b.seconds) Timestamp.ext_iff.symm

namespace Timestamp

instance : LE Timestamp := ⟨fun a b => a.seconds ≤ b.seconds⟩

instance : LT Timestamp := ⟨fun a b => a.seconds < b.seconds⟩

instance (a b : Timestamp) : Decidable (a ≤ b) :=
  inferInstanceAs (Decidable (a.seconds ≤ b.seconds))

instance (a b : Timestamp) : Decidable (a < b) :=
  inferInstanceAs (Decidable (a.seconds < b.seconds))

instance : Ord Timestamp := ⟨fun a b => compare a.seconds b.seconds⟩

theorem le_def {a b : Timestamp} : a ≤ b ↔ a.seconds ≤ b.seconds := Iff.rfl

def ofNat? (n : Nat) : Option Timestamp :=
  if h : n < 1 <<< 32 then some ⟨n, h⟩ else none

/-- The signed number of seconds from `earlier` to `later`. -/
def since (later earlier : Timestamp) : Int := (later.seconds : Int) - earlier.seconds

/-- The time `seconds` later, if it has at most 32 bits. -/
def after? (t : Timestamp) (seconds : Nat) : Option Timestamp := ofNat? (t.seconds + seconds)

def text (t : Timestamp) : String := toString t.seconds

end Timestamp
end DifficultyRules
