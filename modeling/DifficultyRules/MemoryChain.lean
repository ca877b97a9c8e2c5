/-
# `DifficultyRules.MemoryChain` — a chain that is kept in memory

Such a chain is grown block by block, for trying out the rules.  It is never
empty, so the newest block, its tip, is a field of its own.  It may begin above
genesis, and then the parent of its first block is unknown.

Stored blocks can be marked.  A forgotten block is not found any more, and the
lookup of a failing one is an error; failing counts first.  The marks concern
lookups only, and the chain still grows on a marked block.

Block names are the numbers from one on, one for each block and each candidate.
-/
import DifficultyRules.Store

namespace DifficultyRules

/-- The work that a block with these bits adds to its chain, zero if they stand for no target. -/
def Compact.work (c : Compact) : Nat :=
  match c.toTarget with
  | .ok t => t.work
  | .error _ => 0

structure MemoryChain.Entry where
  block : Block
  forgotten : Bool := false
  failing : Bool := false
deriving DecidableEq, Repr

structure MemoryChain where
  tip : MemoryChain.Entry
  /-- The blocks below the tip, the newest first. -/
  older : List MemoryChain.Entry
  /-- The number that names the next block. -/
  nextId : Nat
  nextId_lt : nextId < 1 <<< 64
deriving Repr

namespace MemoryChain

/-- Why an operation on a chain stops halfway. -/
inductive Halt where
  | timeOverflow
  | heightOverflow
  | noBlockAt (height : Height)
  | idsExhausted
deriving DecidableEq, Repr

/-- All blocks, the newest first. -/
def entries (c : MemoryChain) : List Entry := c.tip :: c.older

/-- The block stored under a name, with its marks. -/
def find? (c : MemoryChain) (id : Hash) : Option Entry := c.entries.find? (·.block.id = id)

/-- The oldest block at a height, with its marks. -/
def entryAt? (c : MemoryChain) (height : Height) : Option Entry :=
  c.entries.reverse.find? (·.block.height = height)

/-- The block at a height, whether or not it is marked. -/
def blockAt (c : MemoryChain) (height : Height) : Except Halt Block :=
  match c.entryAt? height with
  | some e => .ok e.block
  | none => .error (.noBlockAt height)

/-- The chain as a store, where the marks take effect. -/
def store (c : MemoryChain) : Store where
  get id :=
    match c.find? id with
    | none => .ok none
    | some e =>
      if e.failing then .error (.storage (.readFailed ("block " ++ id.text)))
      else if e.forgotten then .ok none
      else .ok (some e.block)

/-- Changes the marks or blocks of all entries alike. -/
def mapEntries (c : MemoryChain) (f : Entry → Entry) : MemoryChain :=
  { c with tip := f c.tip, older := c.older.map f }

@[simp] theorem entries_mapEntries (c : MemoryChain) (f : Entry → Entry) :
    (c.mapEntries f).entries = c.entries.map f := rfl

theorem mapEntries_congr {c : MemoryChain} {f g : Entry → Entry}
    (h : ∀ e ∈ c.entries, f e = g e) : c.mapEntries f = c.mapEntries g := by
  have htip : f c.tip = g c.tip := h c.tip List.mem_cons_self
  have holder : c.older.map f = c.older.map g :=
    List.map_congr_left fun e he => h e (List.mem_cons_of_mem _ he)
  rw [mapEntries, mapEntries, htip, holder]

theorem mapEntries_self (c : MemoryChain) : c.mapEntries (fun e => e) = c := by
  simp only [mapEntries, List.map_id']

theorem mapEntries_mapEntries (c : MemoryChain) (f g : Entry → Entry) :
    (c.mapEntries f).mapEntries g = c.mapEntries fun e => g (f e) := by
  simp only [mapEntries, List.map_map, Function.comp_def]

/-- A chain whose first block is at `height` and has the work of a chain of such blocks. -/
def startAt (height : Height) (time : Timestamp) (bits : Compact) : Except Halt MemoryChain :=
  if height = .top then .error .heightOverflow
  else
    .ok {
      tip.block := {
        id := .ofWord 1 (by decide)
        parent := .zero
        time, bits, height
        work := bits.work * (height.toNat + 1) }
      older := []
      nextId := 2
      nextId_lt := by decide }

theorem startAt_eq_ok {c : MemoryChain} {height : Height} {time : Timestamp} {bits : Compact}
    (h : startAt height time bits = .ok c) :
    height ≠ .top ∧ c.entries = [c.tip] ∧ c.nextId = 2 ∧
      c.tip = { block := {
        id := .ofWord 1 (by decide)
        parent := .zero
        time, bits, height
        work := bits.work * (height.toNat + 1) } } := by
  rw [startAt] at h
  split at h
  · cases h
  · next htop =>
      cases h
      exact ⟨htop, rfl, rfl, rfl⟩

end MemoryChain
end DifficultyRules
