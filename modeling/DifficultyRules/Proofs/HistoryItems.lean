/-
# `DifficultyRules.Proofs.HistoryItems` — what a history hands out

A history is read one block at a time, and each reading has one of three outcomes
(`next_cases`): a block, after which reading goes on, or an error, or nothing, and after
either of these it is over.  What it hands out before it is over are its items, so that a
number of readings come to

    item, item, …, item, nothing, …, nothing

without a gap (`results_eq`).  Whoever collects blocks stops at the end or at an error, so
the items say what comes of that: the blocks, if that is what all of them are
(`collect_eq_ok_iff`), and otherwise the error that is among them (`collect_eq_error_iff`).
-/
import DifficultyRules.Store.History

namespace DifficultyRules
namespace History

/-- The first so many items that a history hands out, or all of them if they are fewer. -/
def items (s : Store) (most : Nat) (h : History) : List (Except QueryError Block) :=
  (results s most h).filterMap id

variable {s : Store} {bs : List Block} {e : QueryError} {h : History} {most n : Nat}

@[simp] theorem items_zero (s : Store) (h : History) : items s 0 h = [] := rfl

@[simp] theorem items_done (s : Store) (most : Nat) : items s most done = [] := by
  rw [items, results_done, List.filterMap_replicate]
  rfl

theorem items_succ (s : Store) (most : Nat) (h : History) :
    items s (most + 1) h = (h.next s).1.toList ++ items s most (h.next s).2 := by
  rw [items, results, List.filterMap_cons]
  cases (h.next s).1 with
  | none => rfl
  | some item => rfl

/-- **A history hands out a block and goes on from there, or it is done.** -/
theorem next_cases (s : Store) (h : History) :
    h.next s = (none, done) ∨ (∃ e, h.next s = (some (.error e), done)) ∨
      ∃ b, h.next s = (some (.ok b), after b) := by
  cases h with
  | start b => exact .inr (.inr ⟨b, rfl⟩)
  | after b =>
      rw [next]
      cases s.parent b with
      | error e => exact .inr (.inl ⟨e, rfl⟩)
      | ok found =>
          cases found with
          | none => exact .inl rfl
          | some p => exact .inr (.inr ⟨p, rfl⟩)
  | done => exact .inl rfl

/-- What is read is the items, and then nothing any more. -/
theorem results_eq (s : Store) (most : Nat) (h : History) :
    results s most h =
      (items s most h).map some ++ List.replicate (most - (items s most h).length) none := by
  induction most generalizing h with
  | zero => rfl
  | succ most ih =>
      rw [results, items_succ]
      rcases next_cases s h with hn | ⟨e, hn⟩ | ⟨b, hn⟩
      · rw [hn, results_done, items_done]
        rfl
      · rw [hn, results_done, items_done]
        rfl
      · rw [hn, ih, Option.toList_some, List.singleton_append, List.map_cons, List.length_cons,
          Nat.add_sub_add_right, List.cons_append]

theorem length_items_le (s : Store) (most : Nat) (h : History) :
    (items s most h).length ≤ most := by
  induction most generalizing h with
  | zero => exact Nat.le_refl 0
  | succ most ih =>
      have hitem : (h.next s).1.toList.length ≤ 1 := Option.length_toList_le
      have := ih (h.next s).2
      rw [items_succ, List.length_append]
      omega

/-- Fewer items are the first of them. -/
theorem items_of_le (hn : n ≤ most) : items s n h = (items s most h).take n := by
  induction n generalizing most h with
  | zero => rw [items_zero, List.take_zero]
  | succ n ih =>
      obtain ⟨most, rfl⟩ : ∃ k, most = k + 1 := ⟨most - 1, by omega⟩
      rw [items_succ, items_succ]
      rcases next_cases s h with hnext | ⟨e, hnext⟩ | ⟨b, hnext⟩
      · simp only [hnext, items_done, List.append_nil, Option.toList_none, List.take_nil]
      · simp only [hnext, items_done, List.append_nil, Option.toList_some, List.take_succ_cons,
          List.take_nil]
      · simp only [hnext, Option.toList_some, List.singleton_append, List.take_succ_cons,
          ih (Nat.le_of_succ_le_succ hn)]

/-- Blocks are collected when all items are blocks. -/
theorem collect_eq_ok_iff : collect s most h = .ok bs ↔ items s most h = bs.map .ok := by
  induction most generalizing h bs with
  | zero => cases bs <;> simp [collect]
  | succ most ih =>
      rw [collect, items_succ]
      rcases next_cases s h with hnext | ⟨e, hnext⟩ | ⟨b, hnext⟩
      · cases bs <;> simp [hnext]
      · cases bs <;> simp [hnext]
      · cases bs with
        | nil => cases hrest : collect s most (after b) <;> simp [hnext, hrest]
        | cons c cs =>
            simp only [hnext, Option.toList_some, List.singleton_append, List.map_cons,
              List.cons.injEq, Except.ok.injEq, ← ih]
            cases collect s most (after b) <;> simp

/-- An error among the items is what collecting them comes to. -/
theorem collect_eq_error_iff : collect s most h = .error e ↔ .error e ∈ items s most h := by
  induction most generalizing h with
  | zero => simp [collect]
  | succ most ih =>
      rw [collect, items_succ]
      rcases next_cases s h with hnext | ⟨e', hnext⟩ | ⟨b, hnext⟩
      · simp [hnext]
      · simp [hnext, eq_comm]
      · simp only [hnext, Option.toList_some, List.singleton_append, List.mem_cons, reduceCtorEq,
          false_or, ← ih]
        cases collect s most (after b) <;> simp

end History
end DifficultyRules
