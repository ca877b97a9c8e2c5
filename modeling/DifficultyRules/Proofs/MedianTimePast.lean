/-
# `DifficultyRules.Proofs.MedianTimePast` — the median time of what can be read of a past

The median time of a block is taken over eleven blocks, or over fewer where history ends,
and it is not taken at all where history cannot be read.  Whatever the number, it is the
upper median of all their times, in whatever order these come (`medianTime_isMedian`).

From a block to the next, the window gains the new block at one end, and loses at most one
at the other, the oldest of eleven (`window_of_parent`).  If the new block is not before
the median, then no more of the times are before it than were, and half of the new window
is no less than half of the old one, whichever is odd.  So the median has not gone back:
neither from a block to the next (`medianTime_le_of_parent`), nor, by induction, along any
chain that keeps its times so (`Path.medianTime_le`).
-/
import Mathlib.Control.Monad.Basic
import DifficultyRules.Proofs.HistoryItems
import DifficultyRules.Proofs.Median
import DifficultyRules.Proofs.SteadyTable

namespace DifficultyRules

variable {s : Store} {b p : Block} {bs : List Block} {n : Nat} {m past t : Timestamp}
  {ts us : List Timestamp}

/-! ## The median of a window -/

namespace Store

/-- A window holds at least its first block. -/
theorem window_ne_nil (h : s.window (n + 1) b = .ok bs) : bs ≠ [] := by
  rintro rfl
  have hitems := History.collect_eq_ok_iff.1 h
  rw [History.items_succ] at hitems
  cases hitems

theorem length_window_le (h : s.window n b = .ok bs) : bs.length ≤ n := by
  have hlength := History.length_items_le s n (.start b)
  rwa [History.collect_eq_ok_iff.1 h, List.length_map] at hlength

/-- A window that can be read has a median, and this is the median time. -/
theorem exists_medianTime (h : s.window medianSpan b = .ok bs) :
    ∃ m, s.medianTime b = .ok m ∧ IsMedian m (bs.map (·.time)) := by
  obtain ⟨m, hm⟩ := exists_isMedian (mt List.map_eq_nil_iff.1 (window_ne_nil h))
  refine ⟨m, ?_, hm⟩
  simp only [medianTime, h, upperMedian?_eq_some_iff.2 hm, Option.getD_some]

theorem medianTime_eq_ok_iff (h : s.window medianSpan b = .ok bs) :
    s.medianTime b = .ok m ↔ IsMedian m (bs.map (·.time)) := by
  obtain ⟨median, hmedian, hmid⟩ := exists_medianTime h
  rw [hmedian, Except.ok.injEq]
  constructor
  · rintro rfl
    exact hmid
  · exact hmid.unique

/-- Where there is a median time, the window could be read. -/
theorem window_of_medianTime (h : s.medianTime b = .ok m) :
    ∃ bs, s.window medianSpan b = .ok bs := by
  cases hwindow : s.window medianSpan b with
  | error e =>
      rw [medianTime, hwindow] at h
      cases h
  | ok bs => exact ⟨bs, rfl⟩

/-- **The median time is the upper median of what can be read of a block's past.**  What can be
read is the block and up to ten before it.  If one of these readings fails, this is the result.
Otherwise the median time is the time of one of the blocks, no more than half of them are earlier,
and more than half are not later.  Blocks with the same times in another order, in whatever store,
have the same median time. -/
theorem medianTime_isMedian (s : Store) (b : Block) :
    History.results s 11 (.start b) =
      (History.items s 11 (.start b)).map some ++
        List.replicate (11 - (History.items s 11 (.start b)).length) none ∧
    (∀ e, .error e ∈ History.items s 11 (.start b) → s.medianTime b = .error e) ∧
    ((∀ e, .error e ∉ History.items s 11 (.start b)) →
      ∃ (bs : List Block) (m : Timestamp),
        History.items s 11 (.start b) = bs.map .ok ∧ s.medianTime b = .ok m ∧
        IsMedian m (bs.map (·.time)) ∧
        ∀ (s' : Store) (b' : Block) (bs' : List Block),
          History.items s' 11 (.start b') = bs'.map .ok →
          (bs'.map (·.time)).Perm (bs.map (·.time)) → s'.medianTime b' = .ok m) := by
  refine ⟨History.results_eq .., fun e he => ?fault, fun hblocks => ?median⟩
  case fault =>
    have hwindow : s.window medianSpan b = .error e := History.collect_eq_error_iff.2 he
    rw [medianTime, hwindow]
  case median =>
    cases hwindow : s.window medianSpan b with
    | error e => exact absurd (History.collect_eq_error_iff.1 hwindow) (hblocks e)
    | ok bs =>
        obtain ⟨m, hm, hmid⟩ := exists_medianTime hwindow
        refine ⟨bs, m, History.collect_eq_ok_iff.1 hwindow, hm, hmid, ?_⟩
        intro s' b' bs' hitems hperm
        have hwindow' : s'.window medianSpan b' = .ok bs' := History.collect_eq_ok_iff.2 hitems
        exact (medianTime_eq_ok_iff hwindow').2 (hmid.perm hperm.symm)

end Store

/-! ## From a block to the next -/

/-- **A median does not go back** when at most one time leaves, and one enters that is not before
it. -/
theorem IsMedian.le_of_newer (hpast : IsMedian past ts) (hm : IsMedian m (t :: us))
    (hsub : us.Sublist ts) (hlength : ts.length ≤ us.length + 1) (ht : past ≤ t) : past ≤ m := by
  refine Nat.le_of_not_lt fun hlt => ?_
  -- what is not later than `m` is earlier than `past`, and the new time is not
  have hnotLater : (t :: us).countP (· ≤ m) ≤ (t :: us).countP (· < past) := by
    refine List.countP_mono_left fun u _ hu => ?_
    simp only [decide_eq_true_eq, Timestamp.le_def, Timestamp.lt_def] at *
    omega
  have hnew : ¬ decide (t < past) = true := by
    rw [decide_eq_true_eq]
    exact Nat.not_lt.2 ht
  have hearlier : (t :: us).countP (· < past) ≤ ts.countP (· < past) :=
    calc (t :: us).countP (· < past) = us.countP (· < past) := List.countP_cons_of_neg hnew
      _ ≤ ts.countP (· < past) := hsub.countP_le
  have hhalf : ts.length / 2 ≤ (t :: us).length / 2 := Nat.div_le_div_right hlength
  have := hpast.earlier
  have := hm.notLater
  omega

namespace Store

/-- The window of a block is the block, and that of its parent but for the oldest of eleven. -/
theorem window_of_parent (hp : s.parent b = .ok (some p)) (h : s.window (n + 1) p = .ok bs) :
    s.window (n + 1) b = .ok (b :: bs.take n) := by
  have hrest : s.window n p = .ok (bs.take n) := by
    refine History.collect_eq_ok_iff.2 ?_
    rw [History.items_of_le (Nat.le_succ n), History.collect_eq_ok_iff.1 h, List.map_take]
  cases n with
  | zero => rfl
  | succ n => simp only [window_add_two, hp, hrest, Except.map]

/-- Where the parent has a median time, so has the block, and the times of the two windows are as
they have to be for it not to go back. -/
theorem exists_newer_of_parent (hp : s.parent b = .ok (some p)) (h : s.medianTime p = .ok past) :
    ∃ m ts us, s.medianTime b = .ok m ∧ IsMedian past ts ∧ IsMedian m (b.time :: us) ∧
      us.Sublist ts ∧ ts.length ≤ us.length + 1 := by
  obtain ⟨bs, hbs⟩ := window_of_medianTime h
  have hwindow : s.window medianSpan b = .ok (b :: bs.take 10) := window_of_parent hp hbs
  obtain ⟨m, hm, hmid⟩ := exists_medianTime hwindow
  rw [List.map_cons] at hmid
  refine ⟨m, _, _, hm, (medianTime_eq_ok_iff hbs).1 h, hmid, (List.take_sublist 10 bs).map _, ?_⟩
  have hlength : bs.length ≤ 11 := length_window_le hbs
  rw [List.length_map, List.length_map, List.length_take]
  omega

/-- **Median time past does not go back.**  A block that is not before the median time of its parent
has a median time, and not an earlier one. -/
theorem medianTime_le_of_parent (hp : s.parent b = .ok (some p))
    (hpast : s.medianTime p = .ok past) (htime : past ≤ b.time) :
    ∃ m, s.medianTime b = .ok m ∧ past ≤ m := by
  obtain ⟨m, ts, us, hm, hts, hus, hsub, hlength⟩ := exists_newer_of_parent hp hpast
  exact ⟨m, hm, hts.le_of_newer hus hsub hlength htime⟩

/-- Times that are late at every other block.  The window is full at the height 13, and the median
passes from the latest of the early times, which is the parent's own, to the earliest of the late
ones that are left.  At the height 3 the window is still growing. -/
theorem medianTime_le_of_parent_alternating :
    let block (height : Nat) := Table.steadyBlock 0x80000258 minimalRunBits (Fin.ofNat 256 height)
    let s := (Table.steady 0x80000258 minimalRunBits 14).store
    (s.parent (block 13) = .ok (some (block 12)) ∧ s.medianTime (block 12) = .ok (block 12).time ∧
      (block 12).time ≤ (block 13).time ∧ s.medianTime (block 13) = .ok (block 3).time ∧
      (block 12).time ≤ (block 3).time) ∧
    s.parent (block 3) = .ok (some (block 2)) ∧ s.medianTime (block 2) = .ok (block 2).time ∧
      (block 2).time ≤ (block 3).time ∧ s.medianTime (block 3) = .ok (block 1).time ∧
      (block 2).time ≤ (block 1).time := by
  intro block s
  have hfull : s.parent (block 13) = .ok (some (block 12)) :=
    Table.parent_steadyBlock rfl (by decide)
  have hfullPast : s.medianTime (block 12) = .ok (block 12).time := by decide +kernel
  have hfullTime : (block 12).time ≤ (block 13).time := by decide
  have hfullMedian : s.medianTime (block 13) = .ok (block 3).time := by decide +kernel
  have hgrowing : s.parent (block 3) = .ok (some (block 2)) :=
    Table.parent_steadyBlock rfl (by decide)
  have hgrowingPast : s.medianTime (block 2) = .ok (block 2).time := by decide +kernel
  have hgrowingTime : (block 2).time ≤ (block 3).time := by decide
  have hgrowingMedian : s.medianTime (block 3) = .ok (block 1).time := by decide +kernel
  have hle {b p : Block} {past m : Timestamp} (hp : s.parent b = .ok (some p))
      (hpast : s.medianTime p = .ok past) (htime : past ≤ b.time)
      (hm : s.medianTime b = .ok m) : past ≤ m := by
    obtain ⟨m', hm', hle⟩ := medianTime_le_of_parent hp hpast htime
    rwa [Except.ok.inj (hm.symm.trans hm')]
  exact ⟨⟨hfull, hfullPast, hfullTime, hfullMedian, hle hfull hfullPast hfullTime hfullMedian⟩,
    hgrowing, hgrowingPast, hgrowingTime, hgrowingMedian,
    hle hgrowing hgrowingPast hgrowingTime hgrowingMedian⟩

/-- Along a chain whose blocks are not before the median time of their parents, no block has an
earlier median time than one before it. -/
theorem Path.medianTime_le {w : Nat → Block} (h : s.Path b w n)
    (hpast : s.medianTime (w n) = .ok past)
    (htimes : ∀ i, i < n → ∀ m, s.medianTime (w (i + 1)) = .ok m → m ≤ (w i).time) :
    ∃ m, s.medianTime b = .ok m ∧ past ≤ m := by
  induction n generalizing past with
  | zero =>
      rw [h.start] at hpast
      exact ⟨past, hpast, Nat.le_refl _⟩
  | succ n ih =>
      have hp : s.parent (w n) = .ok (some (w (n + 1))) := h.step n (Nat.lt_succ_self n)
      have htime : past ≤ (w n).time := htimes n (Nat.lt_succ_self n) past hpast
      obtain ⟨next, ts, us, hnext, hts, hus, hsub, hlength⟩ := exists_newer_of_parent hp hpast
      obtain ⟨m, hm, hle⟩ := ih (h.mono (Nat.le_succ n)) hnext
        fun i hi => htimes i (Nat.lt_succ_of_lt hi)
      exact ⟨m, hm, Nat.le_trans (hts.le_of_newer hus hsub hlength htime) hle⟩

end Store
end DifficultyRules
