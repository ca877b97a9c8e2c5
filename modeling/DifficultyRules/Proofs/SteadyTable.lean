/-
# `DifficultyRules.Proofs.SteadyTable` — chains to try statements on

A statement about stores says little if no store satisfies its hypotheses.  What it comes
to is tried on chains from genesis that are kept in a table, with their blocks at regular
times.  The spacing is free, and the bits may be any function of the height
(`Table.steadyBlock`).  A block is named by the number after its height.

Of such a chain all is known beforehand.  The names that are found are those of its blocks
(`Table.get_steady_eq_some_iff`), and from each of them, and from the one that would come
next, the walk goes down to genesis by all heights between (`Table.path_steady`).

The chain that is used most has minimal blocks after five real ones.  On a test network
that allows minimal blocks from the start, they make up one run, which begins at the
height 5 (`inMinimalRun_steadyBlock`).
-/
import DifficultyRules.MinimalDifficulty
import DifficultyRules.Proofs.Path
import DifficultyRules.Store.Table

namespace DifficultyRules
namespace Table

/-- The block at a height of a chain from genesis, as far apart in time as `spacing` says. -/
def steadyBlock (spacing : Nat) (bits : Nat → Compact) (height : Fin 256) : Block where
  id := .ofWord (height + 1) (by omega)
  parent := .ofWord height (by omega)
  time := ⟨height * spacing % (1 <<< 32), Nat.mod_lt _ (by decide)⟩
  bits := bits height
  height := ⟨height, by omega⟩
  work := height

/-- The lowest `count` blocks of that chain. -/
def steady (spacing : Nat) (bits : Nat → Compact) (count : Nat) : Table :=
  .ofList (((List.finRange 256).take count).map (steadyBlock spacing bits))

variable {spacing count : Nat} {bits : Nat → Compact} {id : Hash} {b : Block}

/-! ## Lookups -/

theorem steadyBlock_id_inj {height height' : Fin 256}
    (h : (steadyBlock spacing bits height).id = (steadyBlock spacing bits height').id) :
    height = height' := by
  have hnames : height.val + 1 = height'.val + 1 := congrArg Hash.value h
  omega

theorem mem_take_finRange {n : Nat} {height : Fin n} :
    height ∈ (List.finRange n).take count ↔ height.val < count := by
  rw [List.mem_take_iff_getElem]
  simp only [List.getElem_finRange, List.length_finRange]
  constructor
  · rintro ⟨i, hi, rfl⟩
    exact Nat.lt_of_lt_of_le hi (Nat.min_le_left ..)
  · intro h
    exact ⟨height, Nat.lt_min.2 ⟨h, height.isLt⟩, rfl⟩

/-- The names that are found are those of the blocks. -/
theorem get_steady_eq_some_iff :
    (steady spacing bits count).store.get id = .ok (some b) ↔
      ∃ height : Fin 256, height.val < count ∧ steadyBlock spacing bits height = b ∧ b.id = id := by
  have hnames : ((((List.finRange 256).take count).map (steadyBlock spacing bits)).map
      (·.id)).Nodup := by
    rw [List.map_map]
    refine List.Pairwise.map _ ?_ ((List.nodup_finRange 256).sublist (List.take_sublist ..))
    exact fun _ _ hne hid => hne (steadyBlock_id_inj hid)
  rw [steady, get_ofList_eq_some_iff hnames, List.mem_map]
  simp only [mem_take_finRange]
  constructor
  · rintro ⟨⟨height, hlt, rfl⟩, hid⟩
    exact ⟨height, hlt, rfl, hid⟩
  · rintro ⟨height, hlt, rfl, hid⟩
    exact ⟨⟨height, hlt, rfl⟩, hid⟩

/-! ## Walks -/

/-- The parent is the block one height below. -/
theorem parent_steadyBlock {height below : Fin 256} (h : below.val + 1 = height.val)
    (hcount : below.val < count) :
    (steady spacing bits count).store.parent (steadyBlock spacing bits height) =
      .ok (some (steadyBlock spacing bits below)) := by
  have hget : (steady spacing bits count).store.get (steadyBlock spacing bits height).parent =
      .ok (some (steadyBlock spacing bits below)) :=
    get_steady_eq_some_iff.2 ⟨below, hcount, rfl, Hash.ext h⟩
  have hnext : (steadyBlock spacing bits below).height.next =
      (steadyBlock spacing bits height).height := by
    refine Height.ext ?_
    rw [Height.toNat_next]
    show min (below.val + 1) (1 <<< 64 - 1) = height.val
    omega
  have hgenesis : ¬ (steadyBlock spacing bits height).height.isGenesis = true := by
    rw [← hnext, Height.isGenesis_next]
    exact Bool.false_ne_true
  rw [Store.parent, if_neg hgenesis, hget]
  exact if_pos hnext

/-- The walk goes down by all heights. -/
theorem path_steady {height : Nat} (hheight : height < 256) (hcount : height ≤ count) :
    (steady spacing bits count).store.Path (steadyBlock spacing bits (Fin.ofNat 256 height))
      (fun i => steadyBlock spacing bits (Fin.ofNat 256 (height - i))) height where
  start := rfl
  step i hi := by
    have hval {n : Nat} (hn : n < 256) : (Fin.ofNat 256 n).val = n := Nat.mod_eq_of_lt hn
    refine parent_steadyBlock ?_ ?_
    · rw [hval (by omega), hval (by omega)]
      omega
    · rw [hval (by omega)]
      omega

theorem back_steady {height distance : Nat} (hheight : height < 256) (hcount : height ≤ count)
    (hdistance : distance ≤ height) :
    (steady spacing bits count).store.back distance
        (steadyBlock spacing bits (Fin.ofNat 256 height)) =
      .ok (some (steadyBlock spacing bits (Fin.ofNat 256 (height - distance)))) :=
  (path_steady hheight hcount).back hdistance

end Table

/-! ## A run of minimal blocks -/

/-- A test network that has always allowed minimal blocks. -/
def lenientTestnet : Params :=
  { Params.preset .testnet with minimalAfter := ⟨0, by decide⟩ }

/-- Five blocks of real difficulty, and then minimal ones. -/
def minimalRunBits (height : Nat) : Compact :=
  if height < 5 then ⟨0x1c0fffff, by decide⟩ else Network.testnet.limitBits

/-- The run begins after the five, and no interval starts in it. -/
theorem inMinimalRun_steadyBlock (spacing : Nat) (height : Fin 256) :
    lenientTestnet.inMinimalRun (Table.steadyBlock spacing minimalRunBits height) = true ↔
      5 ≤ height.val := by
  have hbits : (minimalRunBits height).encodes lenientTestnet.limit = true ↔ 5 ≤ height.val := by
    rw [minimalRunBits]
    split
    · next hlow => exact iff_of_false (by decide +kernel) (Nat.not_le_of_lt hlow)
    · next hhigh => exact iff_of_true (by decide +kernel) (Nat.le_of_not_lt hhigh)
  constructor
  · intro hrun
    exact hbits.1 ((Bool.and_eq_true ..).mp hrun).2
  · intro hhigh
    have hgenesis : (Table.steadyBlock spacing minimalRunBits height).height.isGenesis = false :=
      decide_eq_false (Nat.ne_of_gt (Nat.lt_of_lt_of_le (by decide) hhigh))
    have hstart : (Table.steadyBlock spacing minimalRunBits height).height.startsInterval
        lenientTestnet.interval.value = false := by
      rw [Bool.eq_false_iff, ne_eq, Height.startsInterval_iff]
      exact Nat.not_dvd_of_pos_of_lt (Nat.lt_of_lt_of_le (by decide) hhigh)
        (Nat.lt_trans height.isLt (by decide))
    have hlimit : (Table.steadyBlock spacing minimalRunBits height).bits.encodes
        lenientTestnet.limit = true := hbits.2 hhigh
    rw [Params.inMinimalRun, hgenesis, hstart, hlimit]
    rfl

end DifficultyRules
