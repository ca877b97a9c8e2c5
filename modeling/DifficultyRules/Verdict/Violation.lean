/-
# `DifficultyRules.Verdict.Violation` — how a block misses its difficulty

A block either carries another difficulty than the rule demands, or bits that
stand for no target at all.  In the first case the violation names both compact
values, and the mismatch says which demand was missed.
-/
import DifficultyRules.Compact

namespace DifficultyRules

/-- Which demand a block's difficulty does not meet. -/
inductive Mismatch where
  | scheduled
  | reduced
  | unchanged
  | minimal
  | returned
deriving DecidableEq, Repr

inductive Violation where
  | mismatch (demand : Mismatch) (expected actual : Compact)
  | undecodable (bits : Compact)
deriving DecidableEq, Repr

def Violation.message : Violation → String
  | mismatch .scheduled e a => "Unexpected difficulty: expected " ++ e.text ++ ", got " ++ a.text
  | mismatch .reduced e a =>
    "Difficulty must be reduced to " ++ e.text ++ " after slow blocks, got " ++ a.text
  | mismatch .unchanged e a => "Difficulty must not change from " ++ e.text ++ ", got " ++ a.text
  | mismatch .minimal e a =>
    "Minimal difficulty " ++ e.text ++ " required after a long gap, got " ++ a.text
  | mismatch .returned e a =>
    "Testnet block must return to difficulty " ++ e.text ++ ", got " ++ a.text
  | undecodable bits => "Bits " ++ bits.text ++ " do not encode a valid target"

end DifficultyRules
