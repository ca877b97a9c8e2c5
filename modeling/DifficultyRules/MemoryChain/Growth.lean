/-
# `DifficultyRules.MemoryChain.Growth` — operations on a chain in memory

An operation on one block gives the changed chain or halts, and then nothing
has changed.  Operations on many blocks are runs of such operations, up to the
first that halts (`applyAll`): what was changed before stays changed.
-/
import DifficultyRules.MemoryChain

namespace DifficultyRules
namespace MemoryChain

/-- The name that the next block or candidate gets. -/
def nextHash (c : MemoryChain) : Hash := .ofWord c.nextId c.nextId_lt

/-! ## One block -/

/-- Appends a block with this time and these bits to the tip.  The last number is never given
out as a name, because none would come after it. -/
def append (c : MemoryChain) (time : Timestamp) (bits : Compact) : Except Halt MemoryChain :=
  if h : c.nextId + 1 < 1 <<< 64 then
    .ok {
      tip.block := {
        id := c.nextHash
        parent := c.tip.block.id
        time, bits
        height := c.tip.block.height.next
        work := c.tip.block.work + bits.work }
      older := c.tip :: c.older
      nextId := c.nextId + 1
      nextId_lt := h }
  else .error .idsExhausted

/-- A header that would extend the tip.  It uses up a name, and is not stored. -/
def candidate (c : MemoryChain) (time : Timestamp) (bits : Compact) :
    Except Halt (Header × MemoryChain) :=
  if h : c.nextId + 1 < 1 <<< 64 then
    .ok ({ id := c.nextHash, parent := c.tip.block.id, time, bits },
      { c with nextId := c.nextId + 1, nextId_lt := h })
  else .error .idsExhausted

/-- What is said of the next block.  The rest follows from the tip. -/
structure Draft where
  /-- The time, unless a spacing is given. -/
  time : Option Timestamp := none
  /-- The seconds after the tip. -/
  spacing : Option Nat := none
  bits : Option Compact := none
deriving DecidableEq, Repr

/-- The time of a drafted block.  Unless it is given, the block is ten minutes later than the
tip, or as late as the tip if that is too late. -/
def Draft.timeOn (d : Draft) (tip : Block) : Except Halt Timestamp :=
  match d.spacing, d.time with
  | some spacing, _ =>
    match tip.time.after? spacing with
    | some time => .ok time
    | none => .error .timeOverflow
  | none, some time => .ok time
  | none, none => .ok ((tip.time.after? 600).getD tip.time)

def build (d : Draft) (c : MemoryChain) : Except Halt MemoryChain :=
  match d.timeOn c.tip.block with
  | .error halt => .error halt
  | .ok time => c.append time (d.bits.getD c.tip.block.bits)

/-- An appended block is the new tip, without marks, and takes up one name. -/
theorem append_eq_ok {c d : MemoryChain} {time : Timestamp} {bits : Compact}
    (h : c.append time bits = .ok d) :
    d.entries = d.tip :: c.entries ∧ d.nextId = c.nextId + 1 ∧
      d.tip = { block := {
        id := c.nextHash
        parent := c.tip.block.id
        time, bits
        height := c.tip.block.height.next
        work := c.tip.block.work + bits.work } } := by
  rw [append] at h
  split at h
  · cases h
    exact ⟨rfl, rfl, rfl⟩
  · cases h

/-- While there are names, a block can be appended. -/
theorem append_of_lt {c : MemoryChain} (h : c.nextId + 1 < 1 <<< 64) (time : Timestamp)
    (bits : Compact) : ∃ d, c.append time bits = .ok d := by
  rw [append, dif_pos h]
  exact ⟨_, rfl⟩

/-- A draft with a spacing is appended that much later, if there is such a time. -/
theorem build_of_lt {c : MemoryChain} {spacing : Nat}
    (h : c.tip.block.time.seconds + spacing < 1 <<< 32) (bits : Compact) :
    c.build { spacing := some spacing, bits := some bits } =
      c.append ⟨c.tip.block.time.seconds + spacing, h⟩ bits := by
  simp only [build, Draft.timeOn, Timestamp.after?, Timestamp.ofNat?, dif_pos h, Option.getD_some]

/-- A candidate uses up a name and changes nothing else. -/
theorem candidate_eq_ok {c d : MemoryChain} {time : Timestamp} {bits : Compact} {header : Header}
    (h : c.candidate time bits = .ok (header, d)) :
    d.entries = c.entries ∧ d.tip = c.tip ∧ d.nextId = c.nextId + 1 := by
  rw [candidate] at h
  split at h
  · cases h
    exact ⟨rfl, rfl, rfl⟩
  · cases h

/-! ## Marks -/

/-- Makes the lookup of every block stored below `height` find nothing. -/
def forgetBelow (height : Height) (c : MemoryChain) : Except Halt MemoryChain :=
  if c.tip.block.height = .top then .error .heightOverflow
  else
    .ok (c.mapEntries fun e => if e.block.height < height then { e with forgotten := true } else e)

/-- Makes the lookup of the block at `height` fail. -/
def failAt (height : Height) (c : MemoryChain) : Except Halt MemoryChain :=
  match c.blockAt height with
  | .error halt => .error halt
  | .ok block =>
    .ok (c.mapEntries fun e => if e.block.id = block.id then { e with failing := true } else e)

/-! ## Many blocks -/

/-- Applies operations in order, up to the first that halts, and says why it halted. -/
def applyAll : List (MemoryChain → Except Halt MemoryChain) → MemoryChain →
    MemoryChain × Option Halt
  | [], c => (c, none)
  | op :: ops, c =>
    match op c with
    | .error halt => (c, some halt)
    | .ok d => applyAll ops d

/-- Applies one operation `count` times, or until it halts. -/
def applyTimes (op : MemoryChain → Except Halt MemoryChain) : Nat → MemoryChain →
    MemoryChain × Option Halt
  | 0, c => (c, none)
  | count + 1, c =>
    match op c with
    | .error halt => (c, some halt)
    | .ok d => applyTimes op count d

/-- Repeating an operation is running a list of copies of it, without building the list. -/
theorem applyTimes_eq_applyAll (op : MemoryChain → Except Halt MemoryChain) (count : Nat)
    (c : MemoryChain) : applyTimes op count c = applyAll (List.replicate count op) c := by
  induction count generalizing c with
  | zero => rfl
  | succ count ih =>
    rw [applyTimes, List.replicate_succ, applyAll]
    split
    · rfl
    · exact ih _

/-- Appends blocks with these times and bits in order. -/
def appendAll (blocks : List (Timestamp × Compact)) (c : MemoryChain) :
    MemoryChain × Option Halt :=
  applyAll (blocks.map fun (time, bits) c => c.append time bits) c

/-- Appends `count` blocks with these bits, each `spacing` seconds after the one before it. -/
def extend (count spacing : Nat) (bits : Compact) (c : MemoryChain) :
    MemoryChain × Option Halt :=
  applyTimes (build { spacing := some spacing, bits := some bits }) count c

/-- A run at a spacing appends one block, if there is a time and a name for it, and goes on. -/
theorem extend_succ_of_lt {c : MemoryChain} {spacing : Nat}
    (htime : c.tip.block.time.seconds + spacing < 1 <<< 32) (hname : c.nextId + 1 < 1 <<< 64)
    (count : Nat) (bits : Compact) :
    ∃ next, c.append ⟨c.tip.block.time.seconds + spacing, htime⟩ bits = .ok next ∧
      c.extend (count + 1) spacing bits = next.extend count spacing bits := by
  obtain ⟨next, hnext⟩ := append_of_lt hname ⟨c.tip.block.time.seconds + spacing, htime⟩ bits
  refine ⟨next, hnext, ?_⟩
  rw [extend, applyTimes, build_of_lt htime, hnext]
  rfl

/-- A property that every single operation keeps is kept by a run of them, halted or not. -/
theorem applyAll_keeps {P : MemoryChain → Prop}
    {ops : List (MemoryChain → Except Halt MemoryChain)}
    (hops : ∀ op ∈ ops, ∀ c d, P c → op c = .ok d → P d) {c : MemoryChain} (hc : P c) :
    P (applyAll ops c).1 := by
  induction ops generalizing c with
  | nil => exact hc
  | cons op ops ih =>
    rw [applyAll]
    split
    · exact hc
    · next d hd =>
      exact ih (fun o ho => hops o (List.mem_cons_of_mem _ ho))
        (hops op List.mem_cons_self c d hc hd)

end MemoryChain
end DifficultyRules
