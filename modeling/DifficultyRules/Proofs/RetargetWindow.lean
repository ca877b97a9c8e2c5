/-
# `DifficultyRules.Proofs.RetargetWindow` — the intervals that retargets measure

Below the sliding window every interval is measured once, after its last block and before
the first one of the next.

    height     0   1   2   3 | 4   5   6   7 | 8   9  10  11 | 12
    measured   first    last   first    last   first    last

The rule is selected by the height of the next block, and finds the first block of the
interval by a walk of one step less than the interval is long.  Both come down to heights
modulo the interval.  The retarget is selected on the blocks whose height plus one is a
multiple (`Params.ruleAt_eq_retarget_iff`), and these are an interval apart on any walk
(`Retarget.dvd_iff_of_path`).  The block that the walk finds is an interval below the next
one (`Retarget.height_add_of_back`).  So no block is measured twice or left out.

An interval that took exactly the timespan changes nothing.  The timespan lies between its
quarter and four times itself, whatever it is, so it counts as it is and cancels
(`Params.scaledTarget_timespan`).  The old target was read from bits, so nothing is lost
when it is encoded again.  Only the limit could still change it, if it were above the
limit.
-/
import DifficultyRules.Proofs.CompleteHistory
import DifficultyRules.Proofs.Path
import DifficultyRules.Proofs.Rounding

namespace DifficultyRules

variable {p : Params} {s : Store} {parent first : Block} {header : Header} {old : Target}
  {w : Nat → Block} {i n : Nat}

/-! ## Where intervals end -/

/-- Below the sliding window, the retarget is selected on the last block of every interval. -/
theorem Params.ruleAt_eq_retarget_iff {height : Height} (hnetwork : p.network ≠ .regtest)
    (hheight : height < p.windowFrom) (bits : Compact) (time : Timestamp) :
    p.ruleAt height bits time = .retarget ↔ p.interval.value ∣ height.toNat + 1 := by
  have hchecks : ¬ p.network.skipsDifficultyChecks = true :=
    mt p.network.skipsDifficultyChecks_iff.1 hnetwork
  rw [← Height.toNat_next_of_lt (Height.lt_top_of_lt hheight), ← Height.startsInterval_iff]
  constructor
  · intro hrule
    exact startsInterval_of_ruleAt hrule
  · intro hstart
    rw [ruleAt, if_neg hchecks, if_neg (Height.not_le.2 hheight), if_pos hstart]

namespace Retarget

/-- On a walk from the last block of an interval, the last blocks of the intervals are whole
intervals away. -/
theorem dvd_iff_of_path (hparent : parent.height < .top) (hw : s.Path parent w n) (hi : i ≤ n)
    (hends : p.interval.value ∣ parent.height.toNat + 1) :
    p.interval.value ∣ (w i).height.toNat + 1 ↔ p.interval.value ∣ i := by
  have hheight : (w i).height.toNat + i = parent.height.toNat :=
    Store.height_of_back hparent (hw.back hi)
  have hsum : (w i).height.toNat + 1 + i = parent.height.toNat + 1 := by omega
  rw [← hsum] at hends
  constructor
  · intro hdvd
    exact (Nat.dvd_add_right hdvd).1 hends
  · intro hdvd
    exact (Nat.dvd_add_left hdvd).1 hends

end Retarget

/-! ## Intervals on schedule -/

/-- The timespan counts as it is, and cancels. -/
theorem Params.scaledTarget_timespan (hold : old ≤ p.limit) :
    p.scaledTarget p.timespan.value old = old := by
  have hcounted : bring p.leastTimespan p.mostTimespan p.timespan.value = p.timespan.value :=
    bring_of_le p.leastTimespan_le p.timespan_le_most
  have hlimit : old.value ≤ p.limit.value := hold
  refine Target.ext ?_
  rw [scaledTarget, Target.value_capped, hcounted, Nat.mul_div_cancel _ p.timespan.pos,
    Nat.min_eq_left hlimit]

/-- An interval on schedule is followed by the same difficulty. -/
theorem Retarget.check_eq_ok_iff_of_schedule
    (hfirst : s.back (depth p) parent = .ok (some first)) (hold : parent.bits.toTarget = .ok old)
    (hlimit : old ≤ p.limit) (htime : parent.time.since first.time = p.timespan.value) :
    (Rule.retarget.check p s parent header).result = .ok () ↔
      header.bits.sameDifficulty parent.bits := by
  rw [Retarget.check_eq_ok_iff hfirst hold, htime, Params.scaledTarget_timespan hlimit,
    Target.normalized_of_toTarget hold, Compact.sameDifficulty_iff_of_toTarget hold]

/-- **Retargets measure every interval once, and one on schedule changes nothing.**  Below the
sliding window, the retarget is selected on a block exactly if the next height is a multiple of the
interval.  On a walk down from there it is selected again with every interval.  The first block,
where it is found, is an interval below the next one, and its height is a multiple too.  If the
time from there is the timespan, and the parent is within the limit, exactly the difficulty of the
parent is accepted. -/
theorem retarget_on_schedule (hnetwork : p.network ≠ .regtest)
    (hparent : parent.height < p.windowFrom) :
    (∀ time, p.ruleAt parent.height parent.bits time = .retarget ↔
      p.interval.value ∣ parent.height.toNat + 1) ∧
    (p.interval.value ∣ parent.height.toNat + 1 →
      (∀ w n, s.Path parent w n → ∀ i, i ≤ n → ∀ time,
        (p.ruleAt (w i).height (w i).bits time = .retarget ↔ p.interval.value ∣ i)) ∧
      ∀ first, s.back (p.interval.value - 1) parent = .ok (some first) →
        first.height.toNat + p.interval.value = parent.height.toNat + 1 ∧
        p.interval.value ∣ first.height.toNat ∧
        ∀ old (header : Header), parent.bits.toTarget = .ok old → old ≤ p.limit →
          parent.time.since first.time = p.timespan.value →
          ((Rule.retarget.check p s parent header).result = .ok () ↔
            header.bits.sameDifficulty parent.bits)) := by
  have htop : parent.height < .top := Height.lt_top_of_lt hparent
  refine ⟨?selected, fun hends => ⟨?walk, ?start⟩⟩
  case selected =>
    intro time
    exact Params.ruleAt_eq_retarget_iff hnetwork hparent _ _
  case walk =>
    intro w n hw i hi time
    have hheight : (w i).height.toNat + i = parent.height.toNat :=
      Store.height_of_back htop (hw.back hi)
    have hbelow : (w i).height < p.windowFrom :=
      Nat.lt_of_le_of_lt (Nat.le.intro hheight) hparent
    rw [Params.ruleAt_eq_retarget_iff hnetwork hbelow]
    exact Retarget.dvd_iff_of_path htop hw hi hends
  case start =>
    intro first hfirst
    have hsum : first.height.toNat + p.interval.value = parent.height.toNat + 1 :=
      Retarget.height_add_of_back htop hfirst
    refine ⟨hsum, Retarget.dvd_of_back htop hends hfirst, ?_⟩
    intro old header hold hlimit htime
    exact Retarget.check_eq_ok_iff_of_schedule hfirst hold hlimit htime

/-- The main network, with intervals of four blocks that should take half an hour from the first
block to the last. -/
def halfHourIntervals : Params :=
  { Params.preset .mainnet with
    interval := ⟨4, by decide, by decide⟩
    timespan := ⟨1800, by decide, by decide⟩ }

/-- After the second interval of a chain with a block every ten minutes, the difficulty stays. -/
theorem retarget_on_schedule_second :
    let block (height : Nat) :=
      Table.steadyBlock 600 (fun _ => minimalRunBits 0) (Fin.ofNat 256 height)
    let s := (Table.steady 600 (fun _ => minimalRunBits 0) 8).store
    s.back 3 (block 7) = .ok (some (block 4)) ∧
      ∀ header, (Rule.retarget.check halfHourIntervals s (block 7) header).result = .ok () ↔
        header.bits.sameDifficulty (minimalRunBits 0) := by
  intro block s
  have hfirst : s.back 3 (block 7) = .ok (some (block 4)) :=
    Table.back_steady (by decide) (by decide) (by decide)
  obtain ⟨-, hends⟩ := @retarget_on_schedule halfHourIntervals s (block 7) (by decide) (by decide)
  obtain ⟨-, -, hcheck⟩ := (hends (by decide)).2 (block 4) hfirst
  have hold : (minimalRunBits 0).toTarget = .ok ⟨0x0fffff <<< 200, by decide⟩ := by
    decide +kernel
  refine ⟨hfirst, ?_⟩
  intro header
  exact hcheck _ header hold (by decide) (by decide)

end DifficultyRules
