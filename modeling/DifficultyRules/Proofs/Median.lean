/-
# `DifficultyRules.Proofs.Median` — what it is to be the median time

The middle of some times is found by sorting them, but sorting is only a way to find it.
What a median is can be said by counting (`IsMedian`): it is one of the times, no more
than half of them are earlier, and more than half are not later.

    ts.countP (· < m)  ≤  ts.length / 2  <  ts.countP (· ≤ m)

Counts do not depend on the order of the times, and no two times can both be in the middle
of the same list (`IsMedian.unique`).  So this determines the median, and the one that
sorting finds has the property (`upperMedian?_eq_some_iff`).

Two readings of the rules are medians: the median time of a block, over eleven blocks
(`medianTime_of_path`), and the block with the middle time of three
(`isMedian_medianBlock`).  Which of three blocks with equal times is taken is a matter of
its own, and said in `DifficultyRules.Proofs.MiddleBlock`.
-/
import DifficultyRules.Proofs.Path
import DifficultyRules.SlidingWindow

namespace DifficultyRules

theorem Timestamp.lt_def {a b : Timestamp} : a < b ↔ a.seconds < b.seconds := Iff.rfl

/-! ## Medians by counting -/

/-- `m` is in the middle of the times `ts`, the later of two middle ones if their number is even. -/
structure IsMedian (m : Timestamp) (ts : List Timestamp) : Prop where
  mem : m ∈ ts
  earlier : ts.countP (· < m) ≤ ts.length / 2
  notLater : ts.length / 2 < ts.countP (· ≤ m)

variable {t m m' : Timestamp} {ts us : List Timestamp} {k : Nat}

theorem isMedian_iff : IsMedian m ts ↔
    m ∈ ts ∧ ts.countP (· < m) ≤ ts.length / 2 ∧ ts.length / 2 < ts.countP (· ≤ m) :=
  ⟨fun ⟨hmem, hearlier, hlater⟩ => ⟨hmem, hearlier, hlater⟩,
    fun ⟨hmem, hearlier, hlater⟩ => ⟨hmem, hearlier, hlater⟩⟩

instance (m : Timestamp) (ts : List Timestamp) : Decidable (IsMedian m ts) :=
  decidable_of_iff _ isMedian_iff.symm

namespace IsMedian

theorem perm (h : IsMedian m ts) (hperm : ts.Perm us) : IsMedian m us where
  mem := hperm.mem_iff.1 h.mem
  earlier := by
    rw [← hperm.countP_eq, ← hperm.length_eq]
    exact h.earlier
  notLater := by
    rw [← hperm.countP_eq, ← hperm.length_eq]
    exact h.notLater

theorem le (h : IsMedian m ts) (h' : IsMedian m' ts) : m ≤ m' := by
  refine Nat.le_of_not_lt fun hlt => ?_
  -- what is not later than `m'` would be earlier than `m`
  have hcount : ts.countP (· ≤ m') ≤ ts.countP (· < m) := by
    refine List.countP_mono_left fun t _ ht => ?_
    simp only [decide_eq_true_eq, Timestamp.le_def, Timestamp.lt_def] at *
    omega
  have := h.earlier
  have := h'.notLater
  omega

theorem unique (h : IsMedian m ts) (h' : IsMedian m' ts) : m = m' :=
  Timestamp.ext (Nat.le_antisymm (h.le h') (h'.le h))

end IsMedian

/-! ## Sorting finds the median -/

theorem perm_insertTime (t : Timestamp) (us : List Timestamp) :
    (insertTime t us).Perm (t :: us) := by
  induction us with
  | nil => exact .refl _
  | cons u us ih =>
      rw [insertTime]
      split
      · exact .refl _
      · exact (ih.cons u).trans (.swap t u us)

theorem perm_sortTimes (ts : List Timestamp) : (sortTimes ts).Perm ts := by
  induction ts with
  | nil => exact .refl _
  | cons t ts ih => exact (perm_insertTime t _).trans (ih.cons t)

theorem pairwise_insertTime (h : us.Pairwise (· ≤ ·)) : (insertTime t us).Pairwise (· ≤ ·) := by
  induction us with
  | nil => exact List.pairwise_singleton _ t
  | cons u us ih =>
      obtain ⟨hu, hus⟩ := List.pairwise_cons.1 h
      rw [insertTime]
      split
      · next hle =>
          refine List.pairwise_cons.2 ⟨fun v hv => ?_, h⟩
          rcases List.mem_cons.1 hv with rfl | hv
          · exact hle
          · exact Nat.le_trans hle (hu v hv)
      · next hle =>
          refine List.pairwise_cons.2 ⟨fun v hv => ?_, ih hus⟩
          rcases List.mem_cons.1 ((perm_insertTime t us).mem_iff.1 hv) with rfl | hv
          · exact Nat.le_of_not_le hle
          · exact hu v hv

theorem pairwise_sortTimes (ts : List Timestamp) : (sortTimes ts).Pairwise (· ≤ ·) := by
  induction ts with
  | nil => exact .nil
  | cons t ts ih => exact pairwise_insertTime ih

/-- In sorted times, those before a place are all that can be earlier than the time there. -/
theorem countP_lt_le_of_sorted (h : ts.Pairwise (· ≤ ·)) (hk : ts[k]? = some m) :
    ts.countP (· < m) ≤ k := by
  induction ts generalizing k with
  | nil => cases hk
  | cons t ts ih =>
      obtain ⟨ht, hts⟩ := List.pairwise_cons.1 h
      cases k with
      | zero =>
          cases hk
          refine Nat.le_of_eq (List.countP_eq_zero.2 fun u hu => ?_)
          simp only [decide_eq_true_eq, Timestamp.lt_def, Nat.not_lt]
          rcases List.mem_cons.1 hu with rfl | hu
          · exact Nat.le_refl _
          · exact ht u hu
      | succ k =>
          have := ih hts hk
          rw [List.countP_cons]
          split
          · omega
          · omega

/-- Those up to a place are not later. -/
theorem lt_countP_le_of_sorted (h : ts.Pairwise (· ≤ ·)) (hk : ts[k]? = some m) :
    k < ts.countP (· ≤ m) := by
  induction ts generalizing k with
  | nil => cases hk
  | cons t ts ih =>
      obtain ⟨ht, hts⟩ := List.pairwise_cons.1 h
      cases k with
      | zero =>
          cases hk
          have hself : decide (m ≤ m) = true := decide_eq_true (Nat.le_refl _)
          rw [List.countP_cons, hself]
          exact Nat.succ_pos _
      | succ k =>
          have hle : decide (t ≤ m) = true := decide_eq_true (ht m (List.mem_of_getElem? hk))
          rw [List.countP_cons, hle]
          exact Nat.succ_lt_succ (ih hts hk)

/-- **Sorting finds the median**, and nothing else. -/
theorem upperMedian?_eq_some_iff : upperMedian? ts = some m ↔ IsMedian m ts := by
  have hfound {m : Timestamp} (h : upperMedian? ts = some m) : IsMedian m ts := by
    rw [upperMedian?, ← length_sortTimes] at h
    have hsorted : IsMedian m (sortTimes ts) :=
      ⟨List.mem_of_getElem? h, countP_lt_le_of_sorted (pairwise_sortTimes ts) h,
        lt_countP_le_of_sorted (pairwise_sortTimes ts) h⟩
    exact hsorted.perm (perm_sortTimes ts)
  refine ⟨hfound, fun h => ?_⟩
  obtain ⟨m', hm'⟩ := Option.isSome_iff_exists.1 (upperMedian?_isSome (List.ne_nil_of_mem h.mem))
  rw [hm', h.unique (hfound hm')]

theorem exists_isMedian (h : ts ≠ []) : ∃ m, IsMedian m ts := by
  obtain ⟨m, hm⟩ := Option.isSome_iff_exists.1 (upperMedian?_isSome h)
  exact ⟨m, upperMedian?_eq_some_iff.1 hm⟩

/-! ## The medians that are read off a walk -/

/-- The times of so many blocks of a walk, from the block `w i` on. -/
def timesFrom (w : Nat → Block) (i count : Nat) : List Timestamp :=
  (List.range count).map fun k => (w (i + k)).time

theorem timesFrom_ne_nil (w : Nat → Block) (i count : Nat) : timesFrom w i (count + 1) ≠ [] := by
  rw [timesFrom, List.range_succ_eq_map, List.map_cons]
  exact List.cons_ne_nil _ _

/-- With ten blocks before it, a block has the median time of eleven. -/
theorem Store.medianTime_of_path {s : Store} {b : Block} {w : Nat → Block} (h : s.Path b w 10)
    (hm : IsMedian m (timesFrom w 0 11)) : s.medianTime b = .ok m := by
  have htimes : ((List.range 11).map w).map (·.time) = timesFrom w 0 11 := by
    simp only [timesFrom, List.map_map, Function.comp_def, Nat.zero_add]
  have hwindow : s.window medianSpan b = .ok ((List.range 11).map w) := h.window
  simp only [medianTime, hwindow, htimes, upperMedian?_eq_some_iff.2 hm, Option.getD_some]

/-- Of three times, the median is one that has another one on either side. -/
theorem isMedian_three {x y z : Timestamp} (hm : m ∈ [x, y, z])
    (hlow : x.seconds ≤ m.seconds ∧ y.seconds ≤ m.seconds ∨
      y.seconds ≤ m.seconds ∧ z.seconds ≤ m.seconds ∨
      z.seconds ≤ m.seconds ∧ x.seconds ≤ m.seconds)
    (hhigh : m.seconds ≤ x.seconds ∧ m.seconds ≤ y.seconds ∨
      m.seconds ≤ y.seconds ∧ m.seconds ≤ z.seconds ∨
      m.seconds ≤ z.seconds ∧ m.seconds ≤ x.seconds) : IsMedian m [x, y, z] := by
  refine ⟨hm, ?earlier, ?notLater⟩
  case earlier =>
    simp only [List.countP_cons, List.countP_nil, List.length_cons, List.length_nil,
      decide_eq_true_eq, Timestamp.lt_def]
    grind
  case notLater =>
    simp only [List.countP_cons, List.countP_nil, List.length_cons, List.length_nil,
      decide_eq_true_eq, Timestamp.le_def]
    grind

/-- The block with the middle time has the median of the three times. -/
theorem isMedian_medianBlock (g p b : Block) :
    IsMedian (medianBlock g p b).time [b.time, p.time, g.time] := by
  simp only [medianBlock, Timestamp.lt_def]
  -- the first comparison orders the outer blocks, the others bring in the one between them
  split
  · dsimp only
    split
    · split
      · exact isMedian_three (by simp) (by omega) (by omega)
      · exact isMedian_three (by simp) (by omega) (by omega)
    · split
      · exact isMedian_three (by simp) (by omega) (by omega)
      · exact isMedian_three (by simp) (by omega) (by omega)
  · dsimp only
    split
    · exact isMedian_three (by simp) (by omega) (by omega)
    · split
      · exact isMedian_three (by simp) (by omega) (by omega)
      · exact isMedian_three (by simp) (by omega) (by omega)

end DifficultyRules
