/-
# `DifficultyRules.Hex` — numbers written with hexadecimal digits

Targets and compact values are shown behind the marker `0x`, hashes as bare
digits.  Written digits are lower case; digits of either case are read.
Padding is on the left with zeros, and a number that is too long for the
requested width is shown in full.
-/
namespace DifficultyRules.Hex

/-- The lower-case digits of `n` without leading zeros; zero is one digit. -/
def digits (n : Nat) : List Char := Nat.toDigits 16 n

/-- The digits of `n`, padded on the left with zeros to at least `width` of them. -/
def padded (width n : Nat) : String := String.ofList ((digits n).leftpad width '0')

/-- `n` behind the marker `0x`, without leading zeros. -/
def marked (n : Nat) : String := "0x" ++ String.ofList (digits n)

/-- The value of one digit of either case. -/
def digitValue? (c : Char) : Option Nat :=
  if '0' ≤ c ∧ c ≤ '9' then some (c.toNat - '0'.toNat)
  else if 'a' ≤ c ∧ c ≤ 'f' then some (c.toNat - 'a'.toNat + 10)
  else if 'A' ≤ c ∧ c ≤ 'F' then some (c.toNat - 'A'.toNat + 10)
  else none

/-- The number that a list of digits stands for, most significant first; no digit is zero. -/
def ofDigits? (cs : List Char) : Option Nat :=
  cs.foldlM (fun n c => (digitValue? c).map (n * 16 + ·)) 0

def read? (s : String) : Option Nat := ofDigits? s.toList

/-- Reads digits behind the marker `0x`. -/
def readMarked? (s : String) : Option Nat :=
  match s.toList with
  | '0' :: 'x' :: cs => ofDigits? cs
  | _ => none

end DifficultyRules.Hex
