/-
# `DifficultyRules.Proofs.EasedTarget` — after slow blocks the difficulty falls, but not far

When blocks are slow, the target of the parent is eased by a quarter of itself, and then
passes through two things that can only make it smaller: the cap at the limit, and the
rounding of the encoding.  So it is never raised by more than a quarter, and the question
is whether it is raised at all.

* It does not fall.  The target of the parent has itself come out of an encoding and is
  within the limit, so neither the cap nor the rounding takes the target below it.
* Short of the limit it rises.  A quarter of a target of at least four is no less than
  one step of its encoding (`grain_le_quarter`), and a target with room for one more step
  is rounded to something above (`Target.lt_normalized_of_add_grain_le`), also where the
  mantissa is full and the step leads to a larger size.
* Where the cap takes effect, the result is the limit, rounded.  This is above every
  other target that can be encoded within the limit.

A target below four has no quarter to be eased by, and the limit as it reads back from its
encoding is as easy as it gets.  These are the two exceptions, and `eased_of_accepted` has
no others.
-/
import DifficultyRules.Proofs.Rounding
import DifficultyRules.Proofs.WalkVerdict
import DifficultyRules.Proofs.WindowTarget

namespace DifficultyRules

variable {p : Params} {s : Store} {parent : Block} {header : Header} {w : Nat → Block}
  {c : Compact} {old : Target}

/-! ## The eased target -/

namespace Params

theorem easedTarget_le (p : Params) (old : Target) :
    (p.easedTarget old).value ≤ old.value + old.value / 4 :=
  Nat.min_le_left ..

theorem easedTarget_le_limit (p : Params) (old : Target) : p.easedTarget old ≤ p.limit :=
  Target.capped_le ..

/-- An encoded target within the limit is not lost by being eased. -/
theorem le_normalized_easedTarget (hc : c.toTarget = .ok old) (hlimit : old ≤ p.limit) :
    old ≤ (p.easedTarget old).normalized :=
  Target.le_normalized hc (Target.le_capped_iff.2 ⟨Nat.le_add_right .., hlimit⟩)

/-- It becomes easier, unless it has no quarter or is the limit already. -/
theorem lt_normalized_easedTarget (hc : c.toTarget = .ok old) (hlimit : old ≤ p.limit)
    (hfour : 4 ≤ old.value) (hne : old ≠ p.limit.normalized) :
    old < (p.easedTarget old).normalized := by
  rcases Nat.le_total (old.value + old.value / 4) p.limit.value with hroom | hcap
  · refine Target.lt_normalized_of_add_grain_le hc ?_
    calc old.value + Compact.grain old.value
        ≤ old.value + old.value / 4 := Nat.add_le_add_left (Compact.grain_le_quarter hfour) _
      _ = (p.easedTarget old).value := (Nat.min_eq_left hroom).symm
  · have hlimited : p.easedTarget old = p.limit := Target.ext (Nat.min_eq_right hcap)
    have hle : old ≤ p.limit.normalized := Target.le_normalized hc hlimit
    rw [hlimited]
    exact Nat.lt_of_le_of_ne hle fun hvalue => hne (Target.ext hvalue)

end Params

/-! ## What is accepted -/

namespace Emergency

variable {later earlier : Timestamp}

/-- After slow blocks the accepted bits decode to the eased target. -/
theorem Medians.toTarget_of_slow (h : Medians s parent later earlier)
    (hslow : 43200 ≤ later.since earlier) (hold : parent.bits.toTarget = .ok old)
    (haccepted : (Rule.emergency.check p s parent header).result = .ok ()) :
    header.bits.toTarget = .ok (p.easedTarget old).normalized := by
  have hverdict : (Rule.emergency.check p s parent header).result = _ :=
    (Verdict.eased h hslow hold rfl).result_check
  rw [haccepted] at hverdict
  obtain ⟨new, hnew, hwanted⟩ := verdictOn_eq_ok.1 hverdict.symm
  rw [hnew, ← Option.some.inj hwanted]
  rfl

/-- Otherwise they decode to the target of the parent. -/
theorem Medians.toTarget_of_quick (h : Medians s parent later earlier)
    (hquick : later.since earlier < 43200) (hold : parent.bits.toTarget = .ok old)
    (haccepted : (Rule.emergency.check p s parent header).result = .ok ()) :
    header.bits.toTarget = .ok old := by
  have hverdict : (Rule.emergency.check p s parent header).result = _ :=
    (Verdict.unchanged h hquick).result_check
  rw [haccepted] at hverdict
  obtain ⟨new, hnew, hwanted⟩ := verdictOn_eq_ok.1 hverdict.symm
  rw [hold] at hwanted
  rw [hnew, ← Option.some.inj hwanted]

end Emergency

/-- **The emergency rule only eases the difficulty, and by a quarter at most.**  On a parent with
sixteen stored ancestors, whose bits decode to a target within the limit, every accepted block has
a target that is no harder, easier by at most a quarter, and within the limit.  It is the same
target if the median times are less than twelve hours apart.  If they are not, it is easier, except
on a target below four or on the limit as it is encoded. -/
theorem eased_of_accepted (hw : s.Path parent w 16) (hold : parent.bits.toTarget = .ok old)
    (hlimit : old ≤ p.limit)
    (haccepted : (Rule.emergency.check p s parent header).result = .ok ()) :
    ∃ new, header.bits.toTarget = .ok new ∧ old ≤ new ∧
      new.value ≤ old.value + old.value / 4 ∧ new ≤ p.limit ∧
      ∀ later earlier, IsMedian later (timesFrom w 0 11) → IsMedian earlier (timesFrom w 6 11) →
        (later.since earlier < 43200 → new = old) ∧
        (43200 ≤ later.since earlier → 4 ≤ old.value → ¬ parent.bits.encodes p.limit →
          old < new) := by
  obtain ⟨later, hlater⟩ := exists_isMedian (timesFrom_ne_nil w 0 10)
  obtain ⟨earlier, hearlier⟩ := exists_isMedian (timesFrom_ne_nil w 6 10)
  have hmedians : Emergency.Medians s parent later earlier := ⟨w, hw, hlater, hearlier⟩
  -- any medians are these, so there is one gap to speak of
  have hgap : ∀ later' earlier', IsMedian later' (timesFrom w 0 11) →
      IsMedian earlier' (timesFrom w 6 11) → later'.since earlier' = later.since earlier := by
    intro later' earlier' hlater' hearlier'
    rw [hlater'.unique hlater, hearlier'.unique hearlier]
  by_cases hslow : 43200 ≤ later.since earlier
  · refine ⟨_, hmedians.toTarget_of_slow hslow hold haccepted,
      Params.le_normalized_easedTarget hold hlimit,
      Nat.le_trans (Target.normalized_le _) (p.easedTarget_le old),
      Nat.le_trans (Target.normalized_le _) (p.easedTarget_le_limit old), ?_⟩
    intro later' earlier' hlater' hearlier'
    rw [hgap _ _ hlater' hearlier']
    refine ⟨fun hquick => absurd hslow (Int.not_le.2 hquick), fun _ hfour hne => ?_⟩
    refine Params.lt_normalized_easedTarget hold hlimit hfour fun heq => hne ?_
    rw [Compact.encodes_iff, hold, heq]
  · refine ⟨old, hmedians.toTarget_of_quick (Int.not_le.1 hslow) hold haccepted,
      Nat.le_refl _, Nat.le_add_right .., hlimit, ?_⟩
    intro later' earlier' hlater' hearlier'
    rw [hgap _ _ hlater' hearlier']
    exact ⟨fun _ => rfl, fun hslow' => absurd hslow' hslow⟩

/-- After twenty blocks of more than two hours each, one with a target eased by a quarter passes,
and the rounding leaves it above that of its parent. -/
theorem eased_of_accepted_slow :
    let bits := minimalRunBits 0
    let block (height : Nat) := Table.steadyBlock 7800 (fun _ => bits) (Fin.ofNat 256 height)
    ∃ old new, bits.toTarget = .ok old ∧
      (⟨0x1c13fffe, by decide⟩ : Compact).toTarget = .ok new ∧
      (Rule.emergency.check (.preset .mainnet) (Table.steady 7800 (fun _ => bits) 21).store
        (block 20) { (block 21).toHeader with bits := ⟨0x1c13fffe, by decide⟩ }).result = .ok () ∧
      old < new ∧ new.value ≤ old.value + old.value / 4 := by
  intro bits block
  have hpath : (Table.steady 7800 (fun _ => bits) 21).store.Path (block 20)
      (fun i => block (20 - i)) 16 := (Table.path_steady (by decide) (by decide)).mono (by decide)
  have haccepted : (Rule.emergency.check (.preset .mainnet)
      (Table.steady 7800 (fun _ => bits) 21).store (block 20)
      { (block 21).toHeader with bits := ⟨0x1c13fffe, by decide⟩ }).result = .ok () := by
    decide +kernel
  have hold : bits.toTarget = .ok ⟨0x0fffff <<< 200, by decide⟩ := by decide +kernel
  obtain ⟨new, hnew, -, hmost, -, hmedians⟩ := eased_of_accepted hpath hold (by decide) haccepted
  have hlater : IsMedian (block 15).time (timesFrom (fun i => block (20 - i)) 0 11) := by
    decide +kernel
  have hearlier : IsMedian (block 9).time (timesFrom (fun i => block (20 - i)) 6 11) := by
    decide +kernel
  have heasier := (hmedians _ _ hlater hearlier).2 (by decide) (by decide) (by decide)
  exact ⟨_, new, hold, hnew, haccepted, heasier, hmost⟩

end DifficultyRules
