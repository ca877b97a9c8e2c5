/-
# `DifficultyRules.Verdict.Demand` — what a rule requires of a block's bits

A rule is applied in two steps.  First it works out its demand from the chain
and the block's time; the block's own bits have no part in that.  Then the bits
are held against the demand, always in the same way: they must stand for a
target, and it must be the demanded one.  A demanded target is compared as it
reads back from a header, because the bits cannot hold it more precisely.

A rule may also demand nothing, and then even undecodable bits pass.
-/
import DifficultyRules.Verdict.Traced

namespace DifficultyRules

inductive Demand where
  | anything
  /-- The target `t`, up to the precision of the encoding. -/
  | target (t : Target) (otherwise : Mismatch)
  /-- The difficulty of the compact value `bits`. -/
  | sameAs (bits : Compact) (otherwise : Mismatch)
deriving DecidableEq, Repr

/-- How the bits miss the demand, if they do. -/
def Demand.violation? (bits : Compact) : Demand → Option Violation
  | anything => none
  | target t otherwise =>
    if !bits.decodes then some (.undecodable bits)
    else if bits.encodes t then none
    else some (.mismatch otherwise (.ofTarget t) bits)
  | sameAs expected otherwise =>
    if !bits.decodes then some (.undecodable bits)
    else if bits.sameDifficulty expected then none
    else some (.mismatch otherwise expected bits)

/-- Rejects a block, and warns of it. -/
def Traced.reject (rule : Rule) (height : Height) (cause : Violation) : Traced Unit := do
  emit (.rejected rule height cause)
  fail (.violation rule height cause)

/-- Accepts bits that meet the demand and rejects others. -/
def Demand.judge (rule : Rule) (height : Height) (bits : Compact) (d : Demand) : Traced Unit :=
  match d.violation? bits with
  | none => pure ()
  | some cause => Traced.reject rule height cause

/-- The verdict that a violation leads to, or its absence. -/
def verdict (rule : Rule) (height : Height) : Option Violation → Except CheckError Unit
  | none => .ok ()
  | some cause => .error (.violation rule height cause)

theorem verdict_eq_ok {rule : Rule} {height : Height} {v : Option Violation} :
    verdict rule height v = .ok () ↔ v = none := by
  cases v with
  | none => exact iff_of_true rfl rfl
  | some cause => exact iff_of_false (fun h => nomatch h) (fun h => nomatch h)

theorem Demand.result_judge (rule : Rule) (height : Height) (bits : Compact) (d : Demand) :
    (d.judge rule height bits).result = verdict rule height (d.violation? bits) := by
  simp only [judge]
  cases d.violation? bits <;> rfl

/-- Judging warns when it rejects, and says nothing else. -/
theorem Demand.events_judge (rule : Rule) (height : Height) (bits : Compact) (d : Demand) :
    (d.judge rule height bits).events =
      (d.violation? bits).toList.map (Event.rejected rule height) := by
  rw [judge]
  cases d.violation? bits <;> rfl

end DifficultyRules
