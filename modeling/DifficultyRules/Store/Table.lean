/-
# `DifficultyRules.Store.Table` — a store that is edited block by block

A table holds blocks under their names, and marks names whose lookup fails.
A mark hides the block until it is taken off.  Putting in a block replaces the
one with the same name, and the block put in last stays known even when it is
taken out again.
-/
import DifficultyRules.Store

namespace DifficultyRules

structure Table where
  blocks : List Block := []
  faults : List (Hash × StorageFault) := []
  last : Option Block := none
deriving Repr

namespace Table

/-- The block stored under a name, whether or not its lookup fails. -/
def find? (t : Table) (id : Hash) : Option Block := t.blocks.find? (·.id = id)

/-- The fault that a name is marked with. -/
def fault? (t : Table) (id : Hash) : Option StorageFault :=
  (t.faults.find? (·.1 = id)).map (·.2)

/-- Puts a block in, in place of the one with its name. -/
def insert (t : Table) (b : Block) : Table :=
  { t with blocks := b :: t.blocks.filter (·.id ≠ b.id), last := some b }

def erase (t : Table) (id : Hash) : Table :=
  { t with blocks := t.blocks.filter (·.id ≠ id) }

/-- Makes the lookup of a name fail. -/
def mark (t : Table) (id : Hash) (fault : StorageFault) : Table :=
  { t with faults := (id, fault) :: t.faults.filter (·.1 ≠ id) }

def unmark (t : Table) (id : Hash) : Table :=
  { t with faults := t.faults.filter (·.1 ≠ id) }

/-- The blocks in order, each put in after those before it. -/
def ofList (bs : List Block) : Table := bs.foldl insert {}

def store (t : Table) : Store where
  get id :=
    match t.fault? id with
    | some fault => .error (.storage fault)
    | none => .ok (t.find? id)

theorem find?_insert (t : Table) (b : Block) (id : Hash) :
    (t.insert b).find? id = if b.id = id then some b else t.find? id := by
  rw [find?, insert]
  by_cases h : b.id = id
  · simp [h]
  · rw [List.find?_cons_of_neg (by simpa using h), if_neg h, List.find?_filter]
    congr 1
    funext c
    by_cases hc : c.id = id
    · simp [hc, Ne.symm h]
    · simp [hc]

theorem find?_erase (t : Table) (id id' : Hash) :
    (t.erase id).find? id' = if id = id' then none else t.find? id' := by
  rw [find?, erase]
  rw [List.find?_filter]
  by_cases h : id = id'
  · simp [h]
  · rw [if_neg h]
    congr 1
    funext c
    by_cases hc : c.id = id'
    · simp [hc, Ne.symm h]
    · simp [hc]

theorem fault?_ofList (bs : List Block) (id : Hash) : (ofList bs).fault? id = none := by
  suffices h : ∀ t : Table, t.faults = [] → (bs.foldl insert t).faults = [] by
    rw [fault?, ofList, h {} rfl]
    rfl
  induction bs with
  | nil => exact fun t ht => ht
  | cons b bs ih => exact fun t ht => ih (t.insert b) ht

/-- Blocks that are put in are found, and replace what was there under their names. -/
theorem find?_foldl_insert {bs : List Block} (hnames : (bs.map (·.id)).Nodup) (t : Table)
    (id : Hash) (b : Block) :
    (bs.foldl insert t).find? id = some b ↔
      (b ∈ bs ∧ b.id = id) ∨ (∀ c ∈ bs, c.id ≠ id) ∧ t.find? id = some b := by
  induction bs generalizing t with
  | nil => simp
  | cons c bs ih =>
    rw [List.map_cons, List.nodup_cons, List.mem_map] at hnames
    rw [List.foldl_cons, ih hnames.2, find?_insert]
    by_cases hc : c.id = id
    · -- the name is that of `c`, so none of the blocks after it has it
      have hother : ∀ d ∈ bs, d.id ≠ id := fun d hd hid => hnames.1 ⟨d, hd, hid.trans hc.symm⟩
      grind
    · grind

/-- In a table of blocks with different names, each is found under its own. -/
theorem get_ofList_eq_some_iff {bs : List Block} (hnames : (bs.map (·.id)).Nodup) {id : Hash}
    {b : Block} : (ofList bs).store.get id = .ok (some b) ↔ b ∈ bs ∧ b.id = id := by
  simp only [store, fault?_ofList, Except.ok.injEq]
  rw [ofList, find?_foldl_insert hnames]
  simp [find?]

end Table
end DifficultyRules
