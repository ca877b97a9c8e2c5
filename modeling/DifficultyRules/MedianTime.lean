/-
# `DifficultyRules.MedianTime` — the median time of a block's recent past

Block times may go backwards, so rules that measure a stretch of the chain use
the median time of the last eleven blocks instead.  Near the start of history
fewer blocks take part; of an even number the later of the two middle times is
taken.
-/
import DifficultyRules.Store.History

namespace DifficultyRules

/-- Puts a time into a sorted list, before the first time that is not earlier. -/
def insertTime (t : Timestamp) : List Timestamp → List Timestamp
  | [] => [t]
  | u :: us => if t ≤ u then t :: u :: us else u :: insertTime t us

def sortTimes (ts : List Timestamp) : List Timestamp := ts.foldr insertTime []

theorem length_insertTime (t : Timestamp) (us : List Timestamp) :
    (insertTime t us).length = us.length + 1 := by
  induction us with
  | nil => rfl
  | cons u us ih =>
    rw [insertTime]
    split
    · rfl
    · rw [List.length_cons, ih, List.length_cons]

@[simp] theorem length_sortTimes (ts : List Timestamp) : (sortTimes ts).length = ts.length := by
  induction ts with
  | nil => rfl
  | cons t ts ih => exact (length_insertTime t _).trans (congrArg (· + 1) ih)

/-- The middle one of the times in order, the later of two; nothing of no times. -/
def upperMedian? (ts : List Timestamp) : Option Timestamp := (sortTimes ts)[ts.length / 2]?

/-- Some time is in the middle unless there is none. -/
theorem upperMedian?_isSome {ts : List Timestamp} (h : ts ≠ []) : (upperMedian? ts).isSome := by
  have h : 0 < ts.length := List.length_pos_iff.2 h
  have : ts.length / 2 < (sortTimes ts).length := by rw [length_sortTimes]; omega
  rw [upperMedian?, List.getElem?_eq_getElem this, Option.isSome_some]

/-- The number of blocks whose median time is taken. -/
def medianSpan : Nat := 11

/-- The median time of a block and the ten before it. -/
def Store.medianTime (s : Store) (b : Block) : Except QueryError Timestamp :=
  match s.window medianSpan b with
  | .error e => .error e
  | .ok bs => .ok ((upperMedian? (bs.map (·.time))).getD b.time)

end DifficultyRules
