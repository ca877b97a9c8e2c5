/-
# `DifficultyRules.Store.History` — reading a chain backwards, block by block

A history starts with a block and goes on with its ancestors, one lookup for
each further block.  A failed lookup is reported once; after it, and after the
end of stored history, nothing more comes.

`collect` reads a limited number of blocks and `find` looks for the first one
with a property.  `find` needs a bound to be total, and `lookupBound` takes
nothing away (`Store.find_eq_nearest_of_le`): there are `2 ^ 256` names, so a
longer walk has come back to a block that it had already passed and will pass
again, and it finds nothing.
-/
import DifficultyRules.Store

namespace DifficultyRules

/-- How far a chain has been read. -/
inductive History where
  /-- Nothing has been read; the block itself comes next. -/
  | start (b : Block)
  /-- The block was read last; its parent comes next. -/
  | after (b : Block)
  | done
deriving DecidableEq, Repr

namespace History

/-- The next block, or an error, or nothing, and where reading goes on. -/
def next (s : Store) : History → Option (Except QueryError Block) × History
  | start b => (some (.ok b), after b)
  | after b =>
    match s.parent b with
    | .error e => (some (.error e), done)
    | .ok none => (none, done)
    | .ok (some p) => (some (.ok p), after p)
  | done => (none, done)

/-- What the next `calls` readings give, one after the other. -/
def results (s : Store) : Nat → History → List (Option (Except QueryError Block))
  | 0, _ => []
  | calls + 1, h => (h.next s).1 :: results s calls (h.next s).2

/-- At most `most` blocks, the newest first, or the first error among them. -/
def collect (s : Store) : Nat → History → Except QueryError (List Block)
  | 0, _ => .ok []
  | most + 1, h =>
    match h.next s with
    | (none, _) => .ok []
    | (some (.error e), _) => .error e
    | (some (.ok b), rest) =>
      match collect s most rest with
      | .error e => .error e
      | .ok bs => .ok (b :: bs)

/-- The first block with the property `q` among at most `most`, or an error that comes before it. -/
def find (s : Store) (q : Block → Bool) : Nat → History → Except QueryError (Option Block)
  | 0, _ => .ok none
  | most + 1, h =>
    match h.next s with
    | (none, _) => .ok none
    | (some (.error e), _) => .error e
    | (some (.ok b), rest) => if q b then .ok (some b) else find s q most rest

/-- The number of blocks after which a walk has looked up some name twice.  The first block of
the walk is given and not looked up. -/
def lookupBound : Nat := 1 <<< 256 + 2

@[simp] theorem results_done (s : Store) (calls : Nat) :
    results s calls done = List.replicate calls none := by
  induction calls with
  | zero => rfl
  | succ calls ih => simp [results, next, ih, List.replicate_succ]

end History

namespace Store

/-- The block and its ancestors, at most `most` of them. -/
def window (s : Store) (most : Nat) (b : Block) : Except QueryError (List Block) :=
  History.collect s most (.start b)

/-- The nearest of the block and its ancestors that has the property `q`. -/
def nearest (s : Store) (q : Block → Bool) (b : Block) : Except QueryError (Option Block) :=
  History.find s q History.lookupBound (.start b)

end Store
end DifficultyRules
