/-
# `DifficultyRules.Proofs.Path` — the blocks that a walk comes by

`s.back n b` is the block at the end of a walk.  A rule that reads several blocks of one
walk is better described by all of them, and `s.Path b w n` gives them names: the walk
from `b` goes on for `n` steps, and comes by `w 0`, which is `b`, `w 1` and so on up to
`w n`.  Only the parent of a block is mentioned in that, so a path does not presuppose
any of the readings that it is to describe.

Of any walk of `n` steps, one of three things is true (`path_cases`).

    it goes on                a path of `n` steps
    it ends at some block     a path of fewer steps, to a block without a stored parent
    it fails at some block    a path of fewer steps, to a block whose parent cannot be read

A walk that does not go on brings what the lookup at its last block has brought, at any
distance beyond (`Path.back_of_end`).
-/
import DifficultyRules.Proofs.Walk

namespace DifficultyRules
namespace Store

/-- The walk from `b` goes on for `n` steps, by the blocks `w 0` to `w n`. -/
structure Path (s : Store) (b : Block) (w : Nat → Block) (n : Nat) : Prop where
  start : w 0 = b
  step : ∀ i, i < n → s.parent (w i) = .ok (some (w (i + 1)))

variable {s : Store} {b c : Block} {w : Nat → Block} {k n : Nat}

namespace Path

theorem mono (h : s.Path b w n) (hk : k ≤ n) : s.Path b w k where
  start := h.start
  step i hi := h.step i (Nat.lt_of_lt_of_le hi hk)

/-- From any of its blocks, the path goes on for as many steps as are left. -/
theorem drop (h : s.Path b w n) (k : Nat) : s.Path (w k) (fun i => w (k + i)) (n - k) where
  start := rfl
  step i hi := h.step (k + i) (by omega)

theorem back (h : s.Path b w n) (hk : k ≤ n) : s.back k b = .ok (some (w k)) := by
  induction k with
  | zero => rw [h.start, back_zero]
  | succ k ih => rw [back_add_of_some (ih (Nat.le_of_succ_le hk)), back_one, h.step k hk]

/-- A walk that ends, or fails, does so at every distance beyond. -/
theorem back_of_end {r : Except QueryError (Option Block)} (h : s.Path b w k) (hk : k < n)
    (hend : s.parent (w k) = r) (hr : ∀ c, r ≠ .ok (some c)) : s.back n b = r := by
  have hstep : s.back (k + 1) b = r := by
    rw [back_add_of_some (h.back (Nat.le_refl k)), back_one, hend]
  obtain ⟨j, rfl⟩ := Nat.exists_eq_add_of_le (Nat.succ_le_of_lt hk)
  rw [back_add_of_not_found (by rwa [hstep]), hstep]

/-- The block after a path prolongs it. -/
theorem snoc (h : s.Path b w n) (hc : s.parent (w n) = .ok (some c)) :
    ∃ w', s.Path b w' (n + 1) := by
  refine ⟨fun i => if i ≤ n then w i else c, ?_, fun i hi => ?_⟩
  · rw [if_pos (Nat.zero_le n), h.start]
  · rw [if_pos (Nat.le_of_lt_succ hi)]
    rcases Nat.lt_or_eq_of_le (Nat.le_of_lt_succ hi) with hlt | rfl
    · rw [if_pos (Nat.succ_le_of_lt hlt), h.step i hlt]
    · rw [if_neg (Nat.not_succ_le_self i), hc]

end Path

/-- **A walk goes on, or it ends, or it fails**, and up to there its blocks make a path. -/
theorem path_cases (s : Store) (b : Block) (n : Nat) :
    (∃ w, s.Path b w n) ∨
    (∃ w k, s.Path b w k ∧ k < n ∧ s.parent (w k) = .ok none) ∨
    ∃ w k e, s.Path b w k ∧ k < n ∧ s.parent (w k) = .error e := by
  induction n with
  | zero => exact .inl ⟨fun _ => b, rfl, fun i hi => absurd hi (Nat.not_lt_zero i)⟩
  | succ n ih =>
      rcases ih with ⟨w, hw⟩ | ⟨w, k, hw, hk, hend⟩ | ⟨w, k, e, hw, hk, hend⟩
      · cases hp : s.parent (w n) with
        | error e => exact .inr (.inr ⟨w, n, e, hw, Nat.lt_succ_self n, hp⟩)
        | ok found =>
            cases found with
            | none => exact .inr (.inl ⟨w, n, hw, Nat.lt_succ_self n, hp⟩)
            | some c => exact .inl (hw.snoc hp)
      · exact .inr (.inl ⟨w, k, hw, Nat.lt_succ_of_lt hk, hend⟩)
      · exact .inr (.inr ⟨w, k, e, hw, Nat.lt_succ_of_lt hk, hend⟩)

theorem exists_path_of_back (h : s.back n b = .ok (some c)) : ∃ w, s.Path b w n := by
  rcases path_cases s b n with hw | ⟨w, k, hw, hk, hend⟩ | ⟨w, k, e, hw, hk, hend⟩
  · exact hw
  · rw [hw.back_of_end hk hend (by simp)] at h
    cases h
  · rw [hw.back_of_end hk hend (by simp)] at h
    cases h

/-! ## Windows along a path -/

/-- Where history suffices, a window holds the blocks of the path. -/
theorem Path.window (h : s.Path b w n) : s.window (n + 1) b = .ok ((List.range (n + 1)).map w) := by
  induction n generalizing b w with
  | zero =>
      rw [← h.start]
      rfl
  | succ n ih =>
      have hrest : s.window (n + 1) (w 1) = .ok ((List.range (n + 1)).map fun i => w (1 + i)) :=
        ih (h.drop 1)
      have hp : s.parent b = .ok (some (w 1)) := by
        rw [← h.start]
        exact h.step 0 (Nat.succ_pos n)
      have hblocks : (List.range (n + 2)).map w =
          b :: (List.range (n + 1)).map fun i => w (1 + i) := by
        rw [List.range_succ_eq_map, List.map_cons, List.map_map, h.start]
        simp only [Function.comp_def, Nat.succ_eq_add_one, Nat.add_comm]
      simp only [window_add_two, hp, hrest, hblocks, Except.map]

end Store
end DifficultyRules
