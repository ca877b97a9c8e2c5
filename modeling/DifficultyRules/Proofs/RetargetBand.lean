/-
# `DifficultyRules.Proofs.RetargetBand` — how far one retarget moves the target

A retarget is meant to change the target by a factor of four at most.  It counts
the interval with between a quarter of its timespan and four times the timespan,
and both bounds are numbers of seconds, so the quarter is rounded down.

    new  =  old * counted / timespan        timespan / 4  ≤  counted  ≤  4 * timespan

The upper end is as it should be.  A cap at 64 bits, or at the limit, only makes the
new target smaller.  At the lower end the rounding goes the wrong way, since fewer
seconds make a smaller target.  What is left is the fraction `timespan / 4` of the
timespan, rounded down before it is multiplied (`least_le_scaledTarget`), and this is
a quarter exactly if four divides the timespan.  The presets of two weeks are of that
kind.  But a timespan of seven seconds divides a target by seven, and with one of
three seconds the new target can be zero, whatever the old one was.

For a single target this is a matter of remainders (`quarter_le_iff`): what the old
target loses to the rounding of its own quarter can make up for the timespan.  For
all targets within a limit of at least four, it cannot (`scaledTarget_band`).
-/
import DifficultyRules.Proofs.WindowTarget
import DifficultyRules.Retarget

namespace DifficultyRules

/-! ## A quarter, rounded down in two ways -/

/-- A quarter of `a` is no more than `a` times the quarter of `b`, in proportion to `b`, unless `b`
loses more to the rounding than `a` does. -/
theorem quarter_le_iff {a b : Nat} (hb : 0 < b) :
    a / 4 ≤ a * (b / 4) / b ↔ a / 4 * (b % 4) ≤ a % 4 * (b / 4) := by
  have ha : a * (b / 4) = a / 4 * (4 * (b / 4)) + a % 4 * (b / 4) := by
    rw [← Nat.mul_assoc, Nat.mul_comm (a / 4) 4, ← Nat.add_mul, Nat.div_add_mod]
  have hmul : a / 4 * b = a / 4 * (4 * (b / 4)) + a / 4 * (b % 4) := by
    rw [← Nat.mul_add, Nat.div_add_mod]
  rw [Nat.le_div_iff_mul_le hb, ha, hmul, Nat.add_le_add_iff_left]

namespace Params

variable {p : Params} {old : Target}

/-! ## The seconds that an interval counts with -/

theorem mostTimespan_le (p : Params) : p.mostTimespan ≤ 4 * p.timespan.value := by
  rw [mostTimespan, Span.times, retargetFactor, Nat.mul_comm 4]
  exact Nat.min_le_left ..

/-! ## The new target -/

theorem scaledTarget_le_limit (p : Params) (elapsed : Int) (old : Target) :
    p.scaledTarget elapsed old ≤ p.limit :=
  Target.capped_le ..

/-- The new target is at most four times as large. -/
theorem scaledTarget_le_mul (p : Params) (elapsed : Int) (old : Target) :
    (p.scaledTarget elapsed old).value ≤ 4 * old.value := by
  have hcounted : bring p.leastTimespan p.mostTimespan elapsed ≤ 4 * p.timespan.value :=
    Nat.le_trans (bring_le_most p.leastTimespan_le_most elapsed) p.mostTimespan_le
  calc (p.scaledTarget elapsed old).value
      ≤ old.value * bring p.leastTimespan p.mostTimespan elapsed / p.timespan.value :=
        Nat.min_le_left ..
    _ ≤ old.value * (4 * p.timespan.value) / p.timespan.value :=
        Nat.div_le_div_right (Nat.mul_le_mul_left _ hcounted)
    _ = 4 * old.value := by
        rw [← Nat.mul_assoc, Nat.mul_div_cancel _ p.timespan.pos, Nat.mul_comm]

/-- The new target is at least the one that the shortest time leads to. -/
theorem least_le_scaledTarget (elapsed : Int) (hold : old ≤ p.limit) :
    old.value * (p.timespan.value / 4) / p.timespan.value ≤
      (p.scaledTarget elapsed old).value := by
  refine Nat.le_min.2 ⟨?counted, ?limit⟩
  case counted =>
    exact Nat.div_le_div_right (Nat.mul_le_mul_left _ (least_le_bring ..))
  case limit =>
    calc old.value * (p.timespan.value / 4) / p.timespan.value
        ≤ old.value * p.timespan.value / p.timespan.value :=
          Nat.div_le_div_right (Nat.mul_le_mul_left _ (Nat.div_le_self ..))
      _ = old.value := Nat.mul_div_cancel _ p.timespan.pos
      _ ≤ p.limit.value := hold

/-- Where no time has passed, it is this target. -/
theorem scaledTarget_zero_le (p : Params) (old : Target) :
    (p.scaledTarget 0 old).value ≤ old.value * (p.timespan.value / 4) / p.timespan.value := by
  have hcounted : bring p.leastTimespan p.mostTimespan 0 = p.timespan.value / 4 := by
    rw [bring, Int.toNat_zero, Nat.zero_min, Nat.max_zero]
    rfl
  rw [scaledTarget, Target.value_capped, hcounted]
  exact Nat.min_le_left ..

/-- **How far one retarget moves the target.**  The new target is at most four times the old one,
and within the limit.  It is at least the old target times the shortest timespan, in proportion to
the timespan.  This is a quarter of every target within the limit where four divides the timespan;
where it does not, and the limit is not below four, some target falls by more. -/
theorem scaledTarget_band (p : Params) :
    (∀ elapsed old, old ≤ p.limit →
      (p.scaledTarget elapsed old).value ≤ min (4 * old.value) p.limit.value ∧
      old.value * (p.timespan.value / 4) / p.timespan.value ≤
        (p.scaledTarget elapsed old).value) ∧
    (4 ∣ p.timespan.value ∨ p.limit.value < 4 →
      ∀ elapsed old, old ≤ p.limit → old.value / 4 ≤ (p.scaledTarget elapsed old).value) ∧
    (¬ 4 ∣ p.timespan.value → 4 ≤ p.limit.value →
      ∃ old ≤ p.limit, (p.scaledTarget 0 old).value < old.value / 4) := by
  refine ⟨?bounds, ?quarter, ?below⟩
  case bounds =>
    intro elapsed old hold
    exact ⟨Nat.le_min.2 ⟨p.scaledTarget_le_mul elapsed old, p.scaledTarget_le_limit elapsed old⟩,
      least_le_scaledTarget elapsed hold⟩
  case quarter =>
    intro h elapsed old hold
    refine Nat.le_trans ((quarter_le_iff p.timespan.pos).2 ?_) (least_le_scaledTarget elapsed hold)
    rcases h with hdvd | hlimit
    · rw [Nat.mod_eq_zero_of_dvd hdvd, Nat.mul_zero]
      exact Nat.zero_le _
    · have hold : old.value < 4 := Nat.lt_of_le_of_lt hold hlimit
      rw [Nat.div_eq_of_lt hold, Nat.zero_mul]
      exact Nat.zero_le _
  case below =>
    intro hdvd hlimit
    -- four itself has nothing to lose to the rounding of its quarter
    have hfour : ¬ 4 / 4 ≤ 4 * (p.timespan.value / 4) / p.timespan.value := by
      rw [quarter_le_iff p.timespan.pos]
      omega
    refine ⟨⟨4, by decide⟩, hlimit, ?_⟩
    exact Nat.lt_of_le_of_lt (p.scaledTarget_zero_le _) (Nat.lt_of_not_le hfour)

/-- The main network with intervals of ten blocks, which should take ten seconds. -/
def tenSeconds : Params :=
  let ten : Span := ⟨10, by decide, by decide⟩
  { preset .mainnet with interval := ten, timespan := ten }

/-- Two of ten seconds are the shortest time, so half the limit is divided by five. -/
theorem scaledTarget_tenSeconds :
    let old : Target := ⟨0x7fff80 <<< 200, by decide⟩
    old ≤ tenSeconds.limit ∧
      (tenSeconds.scaledTarget 0 old).value = 0x199980 <<< 200 ∧
      ¬ old.value / 4 ≤ (tenSeconds.scaledTarget 0 old).value := by
  decide

end Params
end DifficultyRules
