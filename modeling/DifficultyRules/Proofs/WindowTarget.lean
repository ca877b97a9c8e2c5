/-
# `DifficultyRules.Proofs.WindowTarget` — the target of a window is the easiest that does its work

The sliding window asks for a certain work and computes a target from it.  Two
divisions are involved, and both truncate: the target is `2 ^ 256` divided by the
work, less one, and the work of a target is `2 ^ 256` divided by the target plus
one.  They are adjoint all the same (`le_div_sub_one_iff`), because both compare
the product of the work and the target plus one with `2 ^ 256`.  The target zero
stands apart.  The subtraction stops there, so it is the result for all work
beyond `2 ^ 256`, although no target takes that much.

So the computed target is not just some target for the work.  Every target up to
it, and no other one within the limit, takes at least the work of the window
(`windowTarget_isEasiest`).
-/
import DifficultyRules.SlidingWindow

namespace DifficultyRules

namespace Target

theorem le_capped_iff {u limit : Target} {value : Nat} :
    u ≤ capped value limit ↔ u.value ≤ value ∧ u ≤ limit := by
  rw [le_def, value_capped, Nat.le_min]
  rfl

theorem capped_le (value : Nat) (limit : Target) : capped value limit ≤ limit :=
  Nat.min_le_right ..

theorem capped_mono (limit : Target) {a b : Nat} : a ≤ b → capped a limit ≤ capped b limit := by
  intro h
  rw [le_capped_iff]
  exact ⟨Nat.le_trans (Nat.min_le_left ..) h, capped_le ..⟩

/-- The targets up to the one computed from some work are those that take this work, and zero. -/
theorem le_div_sub_one_iff {work : Nat} (hwork : 0 < work) (u : Target) :
    u.value ≤ (1 <<< 256) / work - 1 ↔ u.value = 0 ∨ work ≤ u.work := by
  rw [Target.work]
  generalize 1 <<< 256 = all
  by_cases hzero : u.value = 0
  · rw [hzero]
    exact iff_of_true (Nat.zero_le _) (.inl rfl)
  · calc u.value ≤ all / work - 1
        ↔ u.value + 1 ≤ all / work := by omega
      _ ↔ (u.value + 1) * work ≤ all := Nat.le_div_iff_mul_le hwork
      _ ↔ work * (u.value + 1) ≤ all := by rw [Nat.mul_comm]
      _ ↔ work ≤ all / (u.value + 1) := (Nat.le_div_iff_mul_le (Nat.succ_pos _)).symm
      _ ↔ u.value = 0 ∨ work ≤ all / (u.value + 1) := (or_iff_right hzero).symm

/-- What is computed from the work of a target is easier, but by no more than the work goes into
the target. -/
theorem div_work_sub_one_between (t : Target) :
    t.value ≤ (1 <<< 256) / t.work - 1 ∧
      (1 <<< 256) / t.work - 1 ≤ t.value + t.value / t.work := by
  refine ⟨(le_div_sub_one_iff t.work_pos t).2 (.inr (Nat.le_refl _)), ?_⟩
  have hall : 1 <<< 256 ≤ t.value + (t.value + 1) * t.work := by
    have := Nat.lt_mul_div_succ (1 <<< 256) (Nat.succ_pos t.value)
    rw [Nat.mul_succ, Nat.succ_eq_add_one, ← work] at this
    omega
  calc (1 <<< 256) / t.work - 1
      ≤ (t.value + (t.value + 1) * t.work) / t.work - 1 :=
        Nat.sub_le_sub_right (Nat.div_le_div_right hall) 1
    _ = t.value / t.work + (t.value + 1) - 1 := by
        rw [Nat.add_mul_div_right _ _ t.work_pos]
    _ = t.value + t.value / t.work := Nat.add_comm ..

end Target

namespace Params

variable {p : Params} {first last : Block}

/-- The seconds of a window, with both bounds capped at 64 bits and negative time counted as
none. -/
theorem windowTimespan_eq :
    p.windowTimespan first last =
      max (min (p.spacing.value * 72) (1 <<< 64 - 1))
        (min (last.time.seconds - first.time.seconds)
          (min (p.spacing.value * 288) (1 <<< 64 - 1))) := by
  rw [windowTimespan, bring, Span.times, Span.times, Timestamp.since, Int.toNat_sub]

theorem windowTarget_of_work (hheight : first.height < last.height)
    (hwork : p.windowWork first last ≠ 0) :
    p.windowTarget first last =
      .ok (.capped ((1 <<< 256) / p.windowWork first last - 1) p.limit) := by
  rw [windowTarget, if_neg (Height.not_le.2 hheight), if_neg hwork]

theorem windowTarget_eq_idle (hheight : first.height < last.height) :
    p.windowTarget first last = .error (.idleWindow first.height last.height) ↔
      p.windowWork first last = 0 := by
  by_cases hwork : p.windowWork first last = 0
  · rw [windowTarget, if_neg (Height.not_le.2 hheight), if_pos hwork]
    exact iff_of_true rfl hwork
  · rw [windowTarget_of_work hheight hwork]
    exact iff_of_false (fun h => nomatch h) hwork

theorem windowTarget_eq_error {e : CheckError} (h : p.windowTarget first last = .error e) :
    e = .emptyWindow first.height last.height ∨ e = .idleWindow first.height last.height := by
  rw [windowTarget] at h
  split at h
  · cases h
    exact .inl rfl
  · split at h
    · cases h
      exact .inr rfl
    · cases h

theorem windowTarget_eq_ok {t : Target} (h : p.windowTarget first last = .ok t) :
    0 < p.windowWork first last ∧
      t = .capped ((1 <<< 256) / p.windowWork first last - 1) p.limit := by
  rw [windowTarget] at h
  split at h
  · cases h
  · split at h
    · cases h
    · next hwork =>
        cases h
        exact ⟨Nat.pos_of_ne_zero hwork, rfl⟩

theorem windowTarget_le_limit {t : Target} (h : p.windowTarget first last = .ok t) :
    t ≤ p.limit := by
  obtain ⟨-, rfl⟩ := windowTarget_eq_ok h
  exact Target.capped_le ..

/-- **The target of a window is the easiest target that does the window's work.**  The work is
that of the blocks, for each spacing of the time they took.  A window without blocks or work has
no target.  Any other has one within the limit, and up to it, of all the targets within the limit,
are exactly those that take the work, and zero. -/
theorem windowTarget_isEasiest (p : Params) (first last : Block) :
    p.windowWork first last =
      (last.work - first.work) * p.spacing.value /
        max (min (p.spacing.value * 72) (1 <<< 64 - 1))
          (min (last.time.seconds - first.time.seconds)
            (min (p.spacing.value * 288) (1 <<< 64 - 1))) ∧
    (last.height ≤ first.height →
      p.windowTarget first last = .error (.emptyWindow first.height last.height)) ∧
    (first.height < last.height →
      (p.windowTarget first last = .error (.idleWindow first.height last.height) ↔
        p.windowWork first last = 0) ∧
      (p.windowWork first last ≠ 0 →
        ∃ t, p.windowTarget first last = .ok t ∧ t ≤ p.limit ∧
          ∀ u, u ≤ p.limit →
            (u ≤ t ↔ u.value = 0 ∨ p.windowWork first last ≤ u.work))) := by
  refine ⟨by rw [windowWork, windowTimespan_eq], ?_, ?_⟩
  · intro hheight
    rw [windowTarget, if_pos hheight]
  · intro hheight
    refine ⟨windowTarget_eq_idle hheight, fun hwork => ?_⟩
    refine ⟨_, windowTarget_of_work hheight hwork, Target.capped_le .., fun u hu => ?_⟩
    rw [Target.le_capped_iff, and_iff_left hu]
    exact Target.le_div_sub_one_iff (Nat.pos_of_ne_zero hwork) u

end Params
end DifficultyRules
