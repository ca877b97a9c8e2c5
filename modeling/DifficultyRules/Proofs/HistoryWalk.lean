/-
# `DifficultyRules.Proofs.HistoryWalk` — reading a history is walking

There are two ways back along a chain.  A walk counts its steps and has one answer, which
is for the whole of it.  A history is read block by block, remembers where it stands, and
gives an answer each time.

Both follow the same parents.  After `n + 1` readings a history stands where a walk of `n`
steps has come, or is done where the walk found no block (`ahead_start_succ`); one more
reading is one more step.  The answers differ in what is made of an end.

    steps       0     1     2     3        4        5
    walk        b     p     g     error    error    error
    readings    b     p     g     error    nothing  nothing

A walk gives the answer it has ended with at every distance beyond, and a history gives it
once and then nothing.  So an error of a walk is one that was read on the way, and a walk
ends without a block where nothing is read and no error was (`reading_iff_back`).
-/
import Mathlib.Logic.Function.Iterate
import DifficultyRules.Proofs.HistoryItems
import DifficultyRules.Proofs.Walk

namespace DifficultyRules
namespace History

/-- Where a history stands after so many readings. -/
def ahead (s : Store) (calls : Nat) (h : History) : History :=
  (fun h => (h.next s).2)^[calls] h

/-- What the reading after `n` others gives. -/
def reading (s : Store) (n : Nat) (h : History) : Option (Except QueryError Block) :=
  ((ahead s n h).next s).1

/-- Where reading goes on that has come as far as a walk with this answer. -/
def ofWalk : Except QueryError (Option Block) → History
  | .ok (some c) => after c
  | .ok none | .error _ => done

/-- The answer of a lookup, as a reading gives it. -/
def shown : Except QueryError (Option Block) → Option (Except QueryError Block)
  | .ok (some c) => some (.ok c)
  | .ok none => none
  | .error e => some (.error e)

variable {s : Store} {a b c : Block} {e : QueryError} {h : History} {k n : Nat}

/-! ## Readings, one after the other -/

theorem ahead_succ (s : Store) (n : Nat) (h : History) :
    ahead s (n + 1) h = ((ahead s n h).next s).2 :=
  Function.iterate_succ_apply' ..

/-- All readings are the first, the second, and so on. -/
theorem results_eq_map (s : Store) (calls : Nat) (h : History) :
    results s calls h = (List.range calls).map fun n => reading s n h := by
  induction calls generalizing h with
  | zero => rfl
  | succ calls ih =>
      rw [results, ih, List.range_succ_eq_map, List.map_cons, List.map_map]
      rfl

@[simp] theorem ahead_done (s : Store) (n : Nat) : ahead s n done = done :=
  Function.iterate_fixed rfl n

/-- Once a history has not given a block, it is done. -/
theorem ahead_of_ended (hended : ∀ a, reading s k h ≠ some (.ok a)) (hn : k < n) :
    ahead s n h = done := by
  have hdone : ahead s (k + 1) h = done := by
    rw [ahead_succ]
    rcases next_cases s (ahead s k h) with hnext | ⟨e, hnext⟩ | ⟨a, hnext⟩
    · rw [hnext]
    · rw [hnext]
    · exact absurd (congrArg Prod.fst hnext) (hended a)
  obtain ⟨j, rfl⟩ := Nat.exists_eq_add_of_le' (Nat.succ_le_of_lt hn)
  rw [ahead, Function.iterate_add_apply]
  exact (congrArg (ahead s j) hdone).trans (ahead_done s j)

theorem reading_of_ended (hended : ∀ a, reading s k h ≠ some (.ok a)) (hn : k < n) :
    reading s n h = none := by
  rw [reading, ahead_of_ended hended hn]
  rfl

/-! ## Readings and steps -/

theorem ofWalk_of_not_found {found : Except QueryError (Option Block)}
    (h : ∀ c, found ≠ .ok (some c)) : ofWalk found = done := by
  cases found with
  | error e => rfl
  | ok found =>
      cases found with
      | none => rfl
      | some c => exact absurd rfl (h c)

/-- A reading looks up the parent, shows what it finds, and goes on from there. -/
theorem next_after (s : Store) (c : Block) :
    (after c).next s = (shown (s.parent c), ofWalk (s.parent c)) := by
  rw [next]
  cases s.parent c with
  | error e => rfl
  | ok found =>
      cases found with
      | none => rfl
      | some p => rfl

/-- One reading is one step. -/
theorem next_ofWalk (s : Store) (n : Nat) (b : Block) :
    ((ofWalk (s.back n b)).next s).2 = ofWalk (s.back (n + 1) b) := by
  by_cases hfound : ∃ c, s.back n b = .ok (some c)
  · obtain ⟨c, hc⟩ := hfound
    rw [Store.back_add_of_some hc, Store.back_one, hc, ofWalk, next_after]
  · have hend : ∀ c, s.back n b ≠ .ok (some c) := not_exists.1 hfound
    rw [Store.back_add_of_not_found hend, ofWalk_of_not_found hend]
    rfl

/-- **A history stands where the walk has come**, and is done where the walk has ended. -/
theorem ahead_start_succ (s : Store) (b : Block) (n : Nat) :
    ahead s (n + 1) (.start b) = ofWalk (s.back n b) := by
  induction n with
  | zero => rfl
  | succ n ih => rw [ahead_succ, ih, next_ofWalk]

/-- From a block of the walk, the next reading shows what the next step finds. -/
theorem reading_of_found (hback : s.back n b = .ok (some c)) :
    reading s (n + 1) (.start b) = shown (s.back (n + 1) b) := by
  rw [reading, ahead_start_succ, hback, ofWalk, next_after, Store.back_add_of_some hback,
    Store.back_one]

/-- After the end of the walk, nothing is read. -/
theorem reading_of_not_found (hback : ∀ c, s.back n b ≠ .ok (some c)) :
    reading s (n + 1) (.start b) = none := by
  rw [reading, ahead_start_succ, ofWalk_of_not_found hback]
  rfl

theorem shown_eq_ok_iff {found : Except QueryError (Option Block)} :
    shown found = some (.ok a) ↔ found = .ok (some a) := by
  cases found with
  | error e => simp [shown]
  | ok found => cases found <;> simp [shown]

theorem shown_eq_error_iff {found : Except QueryError (Option Block)} :
    shown found = some (.error e) ↔ found = .error e := by
  cases found with
  | error e => simp [shown]
  | ok found => cases found <;> simp [shown]

/-- A block is read where the walk comes to it. -/
theorem reading_eq_ok_iff : reading s n (.start b) = some (.ok a) ↔ s.back n b = .ok (some a) := by
  cases n with
  | zero =>
      have hstart : reading s 0 (.start b) = shown (s.back 0 b) := rfl
      rw [hstart, shown_eq_ok_iff]
  | succ n =>
      by_cases hfound : ∃ c, s.back n b = .ok (some c)
      · obtain ⟨c, hc⟩ := hfound
        rw [reading_of_found hc, shown_eq_ok_iff]
      · have hend : ∀ c, s.back n b ≠ .ok (some c) := not_exists.1 hfound
        rw [reading_of_not_found hend, Store.back_add_of_not_found hend]
        exact iff_of_false (fun h => nomatch h) (hend a)

/-- An error that is read is what the walk has ended with. -/
theorem back_of_reading_error (hread : reading s k (.start b) = some (.error e)) :
    s.back k b = .error e := by
  cases k with
  | zero => cases hread
  | succ k =>
      by_cases hfound : ∃ c, s.back k b = .ok (some c)
      · obtain ⟨c, hc⟩ := hfound
        rwa [reading_of_found hc, shown_eq_error_iff] at hread
      · rw [reading_of_not_found (not_exists.1 hfound)] at hread
        cases hread

/-- A walk fails with an error that is read on the way. -/
theorem back_eq_error_iff :
    s.back n b = .error e ↔ ∃ k ≤ n, reading s k (.start b) = some (.error e) := by
  constructor
  · intro herror
    induction n with
    | zero => cases herror
    | succ n ih =>
        by_cases hfound : ∃ c, s.back n b = .ok (some c)
        · -- it is the last step that failed, and the reading shows it
          obtain ⟨c, hc⟩ := hfound
          exact ⟨n + 1, Nat.le_refl _, by rw [reading_of_found hc, herror]; rfl⟩
        · rw [Store.back_add_of_not_found (not_exists.1 hfound)] at herror
          obtain ⟨k, hk, hread⟩ := ih herror
          exact ⟨k, Nat.le_succ_of_le hk, hread⟩
  · rintro ⟨k, hk, hread⟩
    have hend : s.back k b = .error e := back_of_reading_error hread
    obtain ⟨j, rfl⟩ := Nat.exists_eq_add_of_le hk
    rw [Store.back_add_of_not_found (by simp [hend]), hend]

/-- A walk ends without a block where nothing is read, and no error was read before. -/
theorem back_eq_none_iff :
    s.back n b = .ok none ↔
      reading s n (.start b) = none ∧ ∀ k < n, ∀ e, reading s k (.start b) ≠ some (.error e) := by
  constructor
  · intro hnone
    have hclean : ∀ k ≤ n, ∀ e, reading s k (.start b) ≠ some (.error e) := by
      intro k hk e hread
      have herror : s.back n b = .error e := back_eq_error_iff.2 ⟨k, hk, hread⟩
      rw [hnone] at herror
      cases herror
    refine ⟨?_, fun k hk => hclean k (Nat.le_of_lt hk)⟩
    cases hread : reading s n (.start b) with
    | none => rfl
    | some item =>
        cases item with
        | error e => exact absurd hread (hclean n (Nat.le_refl n) e)
        | ok a =>
            rw [reading_eq_ok_iff, hnone] at hread
            cases hread
  · rintro ⟨hnothing, hclean⟩
    cases hback : s.back n b with
    | error e =>
        obtain ⟨k, hk, hread⟩ := back_eq_error_iff.1 hback
        rcases Nat.lt_or_eq_of_le hk with hlt | rfl
        · exact absurd hread (hclean k hlt e)
        · rw [hnothing] at hread
          cases hread
    | ok found =>
        cases found with
        | none => rfl
        | some a =>
            rw [← reading_eq_ok_iff, hnothing] at hback
            cases hback

/-- **Histories and walks agree.**  Reading number `n`, counted from 0, is a block exactly if the
walk of `n` steps comes to it.  The walk fails exactly with an error that has been read by then, and
it ends without a block exactly where nothing is read and no error was read before.  No two readings
are errors, and after an error, or once nothing was read, nothing is. -/
theorem reading_iff_back (s : Store) (b : Block) :
    (∀ calls, results s calls (.start b) =
      (List.range calls).map fun n => reading s n (.start b)) ∧
    (∀ n a, reading s n (.start b) = some (.ok a) ↔ s.back n b = .ok (some a)) ∧
    (∀ n e, s.back n b = .error e ↔ ∃ k ≤ n, reading s k (.start b) = some (.error e)) ∧
    (∀ n, s.back n b = .ok none ↔
      reading s n (.start b) = none ∧ ∀ k < n, ∀ e, reading s k (.start b) ≠ some (.error e)) ∧
    (∀ k n e e', reading s k (.start b) = some (.error e) →
      reading s n (.start b) = some (.error e') → k = n) ∧
    ∀ k n, k < n →
      ((∃ e, reading s k (.start b) = some (.error e)) ∨ reading s k (.start b) = none) →
      reading s n (.start b) = none := by
  have honce {k n : Nat} {e e' : QueryError} (hk : reading s k (.start b) = some (.error e))
      (hn : reading s n (.start b) = some (.error e')) : ¬ k < n := by
    intro hlt
    rw [reading_of_ended (by simp [hk]) hlt] at hn
    cases hn
  refine ⟨fun calls => results_eq_map s calls _, fun n a => reading_eq_ok_iff,
    fun n e => back_eq_error_iff, fun n => back_eq_none_iff, fun k n e e' hk hn => ?once,
    fun k n hlt hended => ?ended⟩
  case once => exact Nat.le_antisymm (Nat.not_lt.1 (honce hn hk)) (Nat.not_lt.1 (honce hk hn))
  case ended =>
    rcases hended with ⟨e, he⟩ | hnothing
    · exact reading_of_ended (by simp [he]) hlt
    · exact reading_of_ended (by simp [hnothing]) hlt

end History
end DifficultyRules
