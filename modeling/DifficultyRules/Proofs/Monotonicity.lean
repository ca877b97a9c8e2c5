/-
# `DifficultyRules.Proofs.Monotonicity` — a slower chain never gets harder

Two rules compute a target, and both are meant to follow the chain: when blocks become
slow, or do less work, the next one must not be harder to find.  A retarget scales the
target of the parent by the seconds of the interval.  The sliding window divides twice.

    work  =  work of the window * spacing / seconds
    new   =  2 ^ 256 / work - 1

Everything on the way truncates or is cut off at a bound: the seconds from both sides,
negative ones to zero; both quotients; the difference at the end; the target at the
limit; and its leading bytes once more when it is encoded.  Each of these steps is
monotonic.  The only one to turn the order around is a division by what grows, and the
window has two of them, by the seconds and then by the work.  So the work of a slower
window is no more (`Slower.windowWork_le`), and its target no smaller
(`Slower.windowTarget_le`).

A window without work has no target.  This is the far end of the same order: a slower
window has none either (`Slower.idle`).

What a block must have is not the computed target, but the one that its encoding decodes
to (`Rule.check_eq_ok_iff_of_target`).  `Target.EasesTo` is the order on both at once.
-/
import DifficultyRules.Proofs.RetargetBand
import DifficultyRules.Proofs.Rounding
import DifficultyRules.Proofs.WindowWork

namespace DifficultyRules

/-! ## Before and after encoding -/

namespace Target

/-- `u` is no harder than `t`, as it stands and as it reads back from its encoding. -/
structure EasesTo (t u : Target) : Prop where
  le : t ≤ u
  decoded_le : ∃ t' u', (Compact.ofTarget t).toTarget = .ok t' ∧
    (Compact.ofTarget u).toTarget = .ok u' ∧ t' ≤ u'

theorem EasesTo.of_le {t u : Target} : t ≤ u → t.EasesTo u := by
  intro h
  refine ⟨h, t.normalized, u.normalized, ?_, ?_, normalized_mono h⟩
  · exact Compact.toTarget_ofTarget t
  · exact Compact.toTarget_ofTarget u

end Target

variable {p : Params} {first last first' last' : Block} {t t' : Target}

/-! ## Retargets -/

/-- After a longer interval the target is no smaller, and neither is it from a larger one. -/
theorem Params.scaledTarget_mono (p : Params) {elapsed elapsed' : Int} {old old' : Target} :
    elapsed ≤ elapsed' → old ≤ old' →
      p.scaledTarget elapsed old ≤ p.scaledTarget elapsed' old' := by
  intro helapsed hold
  have hcounted := bring_mono p.leastTimespan p.mostTimespan helapsed
  refine Target.capped_mono p.limit ?_
  exact Nat.div_le_div_right (Nat.mul_le_mul hold hcounted)

/-! ## Windows -/

/-- The window from `first'` to `last'` does no more work than the one from `first` to `last`, and
takes no less time. -/
structure Slower (first last first' last' : Block) : Prop where
  work_le : last'.work - first'.work ≤ last.work - first.work
  time_le : last.time.since first.time ≤ last'.time.since first'.time

namespace Slower

theorem windowTimespan_le (h : Slower first last first' last') (p : Params) :
    p.windowTimespan first last ≤ p.windowTimespan first' last' :=
  bring_mono _ _ h.time_le

theorem windowWork_le (h : Slower first last first' last') (p : Params) :
    p.windowWork first' last' ≤ p.windowWork first last :=
  calc (last'.work - first'.work) * p.spacing.value / p.windowTimespan first' last'
      ≤ (last.work - first.work) * p.spacing.value / p.windowTimespan first' last' :=
        Nat.div_le_div_right (Nat.mul_le_mul_right _ h.work_le)
    _ ≤ (last.work - first.work) * p.spacing.value / p.windowTimespan first last :=
        Nat.div_le_div_left (h.windowTimespan_le p) Params.windowTimespan_pos

/-- A window that is slower than one without work is without work. -/
theorem idle (h : Slower first last first' last') (hheight : first.height < last.height)
    (hheight' : first'.height < last'.height) :
    p.windowTarget first last = .error (.idleWindow first.height last.height) →
      p.windowTarget first' last' = .error (.idleWindow first'.height last'.height) := by
  intro hidle
  have hwork : p.windowWork first last = 0 := (Params.windowTarget_eq_idle hheight).1 hidle
  have hwork' : p.windowWork first' last' ≤ 0 := by
    rw [← hwork]
    exact h.windowWork_le p
  exact (Params.windowTarget_eq_idle hheight').2 (Nat.le_zero.1 hwork')

/-- The target of a slower window is no smaller. -/
theorem windowTarget_le (h : Slower first last first' last')
    (ht : p.windowTarget first last = .ok t) (ht' : p.windowTarget first' last' = .ok t') :
    t ≤ t' := by
  obtain ⟨-, rfl⟩ := Params.windowTarget_eq_ok ht
  obtain ⟨hpos, rfl⟩ := Params.windowTarget_eq_ok ht'
  refine Target.capped_mono p.limit ?_
  exact Nat.sub_le_sub_right (Nat.div_le_div_left (h.windowWork_le p) hpos) 1

end Slower

/-- **A slower chain never makes it harder.**  A retarget after a longer interval, or from an
easier target, leads to no harder target.  So does a window with less work or more time, and it is
without work wherever the other is.  The order is the same on the targets as they are encoded, and
these are exactly what the two rules accept. -/
theorem easesTo_of_slower (p : Params) :
    (∀ elapsed elapsed' old old', elapsed ≤ elapsed' → old ≤ old' →
      (p.scaledTarget elapsed old).EasesTo (p.scaledTarget elapsed' old')) ∧
    (∀ first last first' last' : Block, first.height < last.height →
      first'.height < last'.height → Slower first last first' last' →
      (p.windowTarget first last = .error (.idleWindow first.height last.height) →
        p.windowTarget first' last' = .error (.idleWindow first'.height last'.height)) ∧
      ∀ t t', p.windowTarget first last = .ok t → p.windowTarget first' last' = .ok t' →
        t.EasesTo t') ∧
    ∀ (s : Store) (parent : Block) (header : Header),
      (∀ first old, s.back (Retarget.depth p) parent = .ok (some first) →
        parent.bits.toTarget = .ok old →
        ((Rule.retarget.check p s parent header).result = .ok () ↔ header.bits.toTarget =
          (Compact.ofTarget (p.scaledTarget (parent.time.since first.time) old)).toTarget)) ∧
      ∀ first last t, SlidingWindow.Ends s parent first last →
        p.windowTarget first last = .ok t →
        ((Rule.slidingWindow.check p s parent header).result = .ok () ↔
          header.bits.toTarget = (Compact.ofTarget t).toTarget) := by
  refine ⟨?retarget, ?window, ?required⟩
  case retarget =>
    intro elapsed elapsed' old old' helapsed hold
    exact .of_le (p.scaledTarget_mono helapsed hold)
  case window =>
    intro first last first' last' hheight hheight' hslower
    refine ⟨hslower.idle hheight hheight', ?_⟩
    intro t t' ht ht'
    exact .of_le (hslower.windowTarget_le ht ht')
  case required =>
    intro s parent header
    refine ⟨?_, ?_⟩
    · intro first old hfirst hold
      rw [Compact.toTarget_ofTarget]
      exact Retarget.check_eq_ok_iff hfirst hold
    · intro first last t hends ht
      rw [Compact.toTarget_ofTarget]
      exact hends.check_eq_ok_iff ht

/-- The same work, done with 900 seconds to a block instead of 600, leads to an easier target. -/
theorem easesTo_of_slower_fifteenMinutes :
    let block (spacing height : Nat) : Block :=
      { Table.steadyBlock spacing minimalRunBits (Fin.ofNat 256 height) with work := height <<< 40 }
    ∃ t t', (Params.preset .mainnet).windowTarget (block 600 0) (block 600 144) = .ok t ∧
      (Params.preset .mainnet).windowTarget (block 900 0) (block 900 144) = .ok t' ∧
      t.EasesTo t' ∧ t ≠ t' := by
  intro block
  have hslower : Slower (block 600 0) (block 600 144) (block 900 0) (block 900 144) :=
    ⟨by decide, by decide⟩
  have ht := @Params.windowTarget_of_work (.preset .mainnet) (block 600 0) (block 600 144)
    (by decide) (by decide)
  have ht' := @Params.windowTarget_of_work (.preset .mainnet) (block 900 0) (block 900 144)
    (by decide) (by decide)
  obtain ⟨-, hwindow, -⟩ := easesTo_of_slower (.preset .mainnet)
  obtain ⟨-, heases⟩ := hwindow _ _ _ _ (by decide) (by decide) hslower
  exact ⟨_, _, ht, ht', heases _ _ ht ht', by decide⟩

end DifficultyRules
