/-
# `DifficultyRules.Proofs.WindowWork` — how far times can move the target of a window

Block times are whatever the makers of the blocks say.  They decide which blocks a
window is measured between, and how long it is counted to have taken; so they move
its target.  How far, is a matter of the work of the blocks and of two bounds.

* The window has at least 142 blocks and at most 146, whichever are chosen
  (`Ends.walk`).  If each of them adds between `least` and `most` work, its work is
  between 142 times the one and 146 times the other (`AddsWork.between`).
* The time is counted as 72 spacings at least and as 288 at most
  (`le_windowTimespan`, `windowTimespan_le`).

The work for each spacing is the quotient of the two, and truncates; the target
divides once more, the other way around.  Both divisions are monotonic, so the
bounds on work and time are bounds on the target (`windowTarget_between`).  A chain
whose blocks all do the same work has its target moved by a factor of two, and by
the two blocks that a window can have more or less.
-/
import DifficultyRules.Proofs.LinkedChain
import DifficultyRules.Proofs.WindowEnds
import DifficultyRules.Proofs.WindowTarget

namespace DifficultyRules

/-! ## The work of a stretch of the walk -/

namespace Store

/-- Each of the first `count` blocks from `b` on adds the work of its own target to that of the
chain below it, and this work is between `least` and `most`. -/
def AddsWork (s : Store) (least most count : Nat) (b : Block) : Prop :=
  ∀ i c q, i < count → s.back i b = .ok (some c) → s.parent c = .ok (some q) →
    ∃ t, c.bits.toTarget = .ok t ∧ c.work = q.work + t.work ∧ least ≤ t.work ∧ t.work ≤ most

variable {s : Store} {b c d : Block} {least most count i k : Nat}

/-- The work between two blocks of the walk is that of the blocks between them. -/
theorem AddsWork.between (h : s.AddsWork least most count b) (hcount : i + k ≤ count)
    (hc : s.back i b = .ok (some c)) (hd : s.back (i + k) b = .ok (some d)) :
    d.work + k * least ≤ c.work ∧ c.work ≤ d.work + k * most := by
  induction k generalizing d with
  | zero =>
      rw [Nat.add_zero, hc] at hd
      cases hd
      simp only [Nat.zero_mul, Nat.add_zero, Nat.le_refl, and_self]
  | succ k ih =>
      -- `m` is the block above `d`, and adds its work to that of `d`
      obtain ⟨m, hm, hparent⟩ := back_succ_eq_some hd
      obtain ⟨hlow, hhigh⟩ := ih (by omega) hm
      obtain ⟨t, -, hwork, hleast, hmost⟩ := h (i + k) m d (by omega) hm hparent
      rw [Nat.succ_mul, Nat.succ_mul]
      omega

end Store

/-! ## The work and the time of a window -/

namespace Params

variable {p : Params} {first last : Block} {work least most : Nat}

theorem windowTimespan_pos : 0 < p.windowTimespan first last :=
  Nat.lt_of_lt_of_le (p.spacing.times_pos (by decide)) (least_le_bring ..)

theorem windowTimespan_le : p.windowTimespan first last ≤ 288 * p.spacing.value := by
  rw [Nat.mul_comm]
  exact Nat.le_trans (bring_le_most (p.spacing.times_mono (by decide)) _) (Nat.min_le_left ..)

/-- The lower bound counts as it is meant unless it leaves 64 bits. -/
theorem le_windowTimespan (h : 288 * p.spacing.value ≤ 1 <<< 64 - 1) :
    72 * p.spacing.value ≤ p.windowTimespan first last := by
  have htimes : p.spacing.times 72 = 72 * p.spacing.value := by
    rw [Span.times, Nat.mul_comm]
    exact Nat.min_eq_left (by omega)
  rw [← htimes]
  exact least_le_bring ..

/-- Over the longest time, the work for each spacing is that of the window in 288 parts. -/
theorem le_windowWork (h : work ≤ last.work - first.work) :
    work / 288 ≤ p.windowWork first last :=
  calc work / 288
      = work * p.spacing.value / (288 * p.spacing.value) :=
        (Nat.mul_div_mul_right _ _ p.spacing.pos).symm
    _ ≤ (last.work - first.work) * p.spacing.value / p.windowTimespan first last :=
        Nat.div_le_div (Nat.mul_le_mul_right _ h) windowTimespan_le
          (Nat.ne_of_gt windowTimespan_pos)

/-- Over the shortest time, it is that of the window in 72 parts. -/
theorem windowWork_le (hspacing : 288 * p.spacing.value ≤ 1 <<< 64 - 1)
    (h : last.work - first.work ≤ work) : p.windowWork first last ≤ work / 72 :=
  calc (last.work - first.work) * p.spacing.value / p.windowTimespan first last
      ≤ work * p.spacing.value / (72 * p.spacing.value) :=
        Nat.div_le_div (Nat.mul_le_mul_right _ h) (le_windowTimespan hspacing)
          (Nat.ne_of_gt (Nat.mul_pos (by decide) p.spacing.pos))
    _ = work / 72 := Nat.mul_div_mul_right _ _ p.spacing.pos

/-- More work takes a harder target. -/
theorem value_between_of_windowWork {t : Target} (hleast : 0 < least)
    (hlow : least ≤ p.windowWork first last) (hhigh : p.windowWork first last ≤ most)
    (ht : t = .capped ((1 <<< 256) / p.windowWork first last - 1) p.limit) :
    min p.limit.value ((1 <<< 256) / most - 1) ≤ t.value ∧
      t.value ≤ min p.limit.value ((1 <<< 256) / least - 1) := by
  have hpos : 0 < p.windowWork first last := Nat.lt_of_lt_of_le hleast hlow
  have hmost : (1 <<< 256) / most ≤ (1 <<< 256) / p.windowWork first last :=
    Nat.div_le_div_left hhigh hpos
  have hleast : (1 <<< 256) / p.windowWork first last ≤ (1 <<< 256) / least :=
    Nat.div_le_div_left hlow hleast
  rw [ht, Target.value_capped]
  omega

end Params

/-! ## The bounds on the target -/

variable {p : Params} {s : Store} {parent first last far : Block} {least most : Nat}

namespace SlidingWindow

/-- The work of a window is that of 142 to 146 blocks. -/
theorem Ends.work_between (h : Ends s parent first last)
    (hwork : s.AddsWork least most depth parent) :
    142 * least ≤ last.work - first.work ∧ last.work - first.work ≤ 146 * most := by
  obtain ⟨i, k, -, hk, hdepth, hlast, hfirst⟩ := h.walk
  obtain ⟨hlow, hhigh⟩ := hwork.between hdepth hlast hfirst
  rw [depth, length] at hdepth
  have hleast : 142 * least ≤ k * least := Nat.mul_le_mul_right _ hk
  have hmost : k * most ≤ 146 * most := Nat.mul_le_mul_right _ (by omega)
  omega

theorem Ends.le_windowWork (h : Ends s parent first last)
    (hwork : s.AddsWork least most depth parent) :
    142 * least / 288 ≤ p.windowWork first last :=
  Params.le_windowWork (h.work_between hwork).1

/-- A window has a target if its blocks do enough work for the longest time to leave some. -/
theorem Ends.windowTarget_eq (h : Ends s parent first last) (hparent : parent.height < .top)
    (hwork : s.AddsWork least most depth parent) (hleast : 1 ≤ 142 * least / 288) :
    p.windowTarget first last =
      .ok (.capped ((1 <<< 256) / p.windowWork first last - 1) p.limit) :=
  Params.windowTarget_of_work (h.height_lt hparent)
    (Nat.ne_of_gt (Nat.lt_of_lt_of_le hleast (h.le_windowWork hwork)))

end SlidingWindow

/-- **Times move the target of a window by a bounded factor.**  Whatever the times of the blocks,
the ends of the window are found and it has a target.  The target is at most the one for 142 blocks
of the least work in twice the intended time, and at least the one for 146 blocks of the most work
in half of it. -/
theorem windowTarget_between (hspacing : 288 * p.spacing.value ≤ 1 <<< 64 - 1)
    (hparent : parent.height < .top) (hfar : s.back 146 parent = .ok (some far))
    (hwork : s.AddsWork least most 146 parent) (hleast : 1 ≤ 142 * least / 288) :
    ∃ last start first t, s.suitable parent = .ok (some last) ∧
      s.back 144 parent = .ok (some start) ∧ s.suitable start = .ok (some first) ∧
      p.windowTarget first last = .ok t ∧
      min p.limit.value ((1 <<< 256) / (146 * most / 72) - 1) ≤ t.value ∧
      t.value ≤ min p.limit.value ((1 <<< 256) / (142 * least / 288) - 1) := by
  obtain ⟨first, last, hends⟩ := SlidingWindow.exists_ends hfar
  obtain ⟨start, hstart, hfirst⟩ := hends.suitable_start
  have htarget := hends.windowTarget_eq (p := p) hparent hwork hleast
  have hhigh : p.windowWork first last ≤ 146 * most / 72 :=
    Params.windowWork_le hspacing (hends.work_between hwork).2
  exact ⟨last, start, first, _, hends.suitable_parent, hstart, hfirst, htarget,
    Params.value_between_of_windowWork hleast (hends.le_windowWork hwork) hhigh rfl⟩

/-! ## The work of a chain in memory -/

theorem Compact.work_of_toTarget {c : Compact} {t : Target} (h : c.toTarget = .ok t) :
    c.work = t.work := by
  rw [work, h]

/-- Bits without a target do no work. -/
theorem Compact.toTarget_of_work_pos {c : Compact} (h : 0 < c.work) :
    ∃ t, c.toTarget = .ok t ∧ c.work = t.work := by
  cases ht : c.toTarget with
  | error e =>
      rw [work, ht] at h
      cases h
  | ok t => exact ⟨t, rfl, work_of_toTarget ht⟩

namespace MemoryChain

/-- Every block of an intact chain adds its work to that of the chain below it. -/
theorem Intact.addsWork {c : MemoryChain} (h : c.Intact) (hleast : 0 < least)
    (hbits : ∀ e ∈ c.entries, least ≤ e.block.bits.work ∧ e.block.bits.work ≤ most)
    (count : Nat) : c.store.AddsWork least most count c.tip.block := by
  intro i b q _ hb hq
  obtain ⟨e, f, he, rfl, rfl, hfollows⟩ := h.follows_of_parent hb hq
  obtain ⟨hlow, hhigh⟩ := hbits e he
  obtain ⟨t, ht, hwork⟩ := Compact.toTarget_of_work_pos (Nat.lt_of_lt_of_le hleast hlow)
  rw [hwork] at hlow hhigh
  exact ⟨t, ht, by rw [hfollows.work, hwork], hlow, hhigh⟩

end MemoryChain

/-- Blocks of two difficulties, with times that jump back and forth. -/
def erraticBlocks : List (Timestamp × Compact) :=
  (List.range 147).map fun n =>
    (⟨n * n * 7919 % (1 <<< 20), Nat.lt_trans (Nat.mod_lt _ (by decide)) (by decide)⟩,
      minimalRunBits (n % 10))

/-- The target stays within its bounds on these blocks. -/
theorem windowTarget_between_erratic :
    ∃ c, MemoryChain.grown erraticBlocks = some c ∧ c.entries.length = 147 ∧
      ∃ last start first t, c.store.suitable c.tip.block = .ok (some last) ∧
        c.store.back 144 c.tip.block = .ok (some start) ∧
        c.store.suitable start = .ok (some first) ∧
        (Params.preset .mainnet).windowTarget first last = .ok t ∧
        min Network.mainnet.limit.value
          ((1 <<< 256) / (146 * (minimalRunBits 0).work / 72) - 1) ≤ t.value ∧
        t.value ≤ min Network.mainnet.limit.value
          ((1 <<< 256) / (142 * (minimalRunBits 9).work / 288) - 1) := by
  have hgrown : (MemoryChain.grown erraticBlocks).map (fun c => decide (
      c.entries.length = 147 ∧
      ∀ e ∈ c.entries, (minimalRunBits 9).work ≤ e.block.bits.work ∧
        e.block.bits.work ≤ (minimalRunBits 0).work)) = some true := by decide +kernel
  obtain ⟨c, hc, hintact, hfacts⟩ := MemoryChain.Intact.of_grown_map hgrown
  obtain ⟨hlength, hbits⟩ := of_decide_eq_true hfacts
  have hfar := hintact.back_of_getElem? (List.getElem?_eq_getElem (i := 146) (by omega))
  exact ⟨c, hc, hlength, windowTarget_between (by decide) hintact.height_lt hfar
    (hintact.addsWork (by decide) hbits 146) (by decide)⟩

end DifficultyRules
