/-
# `DifficultyRules.Proofs.CompleteHistory` — when history is missing although all of it is there

A node that holds a chain down to genesis has all the history there is.  A rule may
still find too little of it, close to genesis.  For a node that is catching up this
would be fatal if it happened where a rule is meant to hold, because no further
history will ever come.

Two rules report missing history, each at a depth of its own
(`Rule.neededDepth?`).  On a complete history this comes down to numbers: a walk
from a block finds exactly as many ancestors as its height says
(`Complete.back_eq_none_iff`).

    retarget          interval - 1    selected where an interval ends; then there are as many
    sliding window    146             selected from any height on

So the retarget always finds the start of its interval (`Retarget.depth_le`), and only
the sliding window can be without history, below height 146.

The main statement is `shortHistory_iff_of_complete`.
-/
import DifficultyRules.Proofs.Hindrance
import DifficultyRules.Proofs.LinkedChain
import DifficultyRules.Proofs.WindowTarget

namespace DifficultyRules

/-! ## The start of an interval -/

theorem Params.startsInterval_of_ruleAt {p : Params} {height : Height} {bits : Compact}
    {time : Timestamp} (h : p.ruleAt height bits time = .retarget) :
    height.next.startsInterval p.interval.value := by
  rw [ruleAt] at h
  split at h
  · cases h
  · split at h
    · split at h
      · cases h
      · cases h
    · split at h
      · next hstart => exact hstart
      · split at h
        · cases h
        · split at h
          · cases h
          · cases h

namespace Retarget

variable {p : Params} {s : Store} {parent first : Block}

/-- The heights of whole intervals are multiples of their length. -/
theorem dvd_next (hparent : parent.height < .top)
    (hstart : parent.height.next.startsInterval p.interval.value) :
    p.interval.value ∣ parent.height.toNat + 1 := by
  rwa [Height.startsInterval_iff, Height.toNat_next_of_lt hparent] at hstart

/-- Where an interval ends, there are enough blocks for all of it. -/
theorem depth_le (hparent : parent.height < .top)
    (hstart : parent.height.next.startsInterval p.interval.value) :
    depth p ≤ parent.height.toNat := by
  have := Nat.le_of_dvd (Nat.succ_pos _) (dvd_next hparent hstart)
  rw [depth]
  omega

/-- The block that is found at this depth is an interval below the next one. -/
theorem height_add_of_back (hparent : parent.height < .top)
    (hfirst : s.back (depth p) parent = .ok (some first)) :
    first.height.toNat + p.interval.value = parent.height.toNat + 1 := by
  have hheight := Store.height_of_back hparent hfirst
  have hpos := p.interval.pos
  rw [depth] at hheight
  omega

theorem dvd_of_back (hparent : parent.height < .top)
    (hends : p.interval.value ∣ parent.height.toNat + 1)
    (hfirst : s.back (depth p) parent = .ok (some first)) :
    p.interval.value ∣ first.height.toNat := by
  rw [← height_add_of_back hparent hfirst] at hends
  exact (Nat.dvd_add_left (Nat.dvd_refl _)).1 hends

/-- It is the first of the interval. -/
theorem startsInterval_of_back (hparent : parent.height < .top)
    (hstart : parent.height.next.startsInterval p.interval.value)
    (hfirst : s.back (depth p) parent = .ok (some first)) :
    first.height.startsInterval p.interval.value := by
  rw [Height.startsInterval_iff]
  exact dvd_of_back hparent (dvd_next hparent hstart) hfirst

end Retarget

/-! ## Missing history -/

variable {p : Params} {s : Store} {parent : Block} {header : Header}

/-- Missing history is reported when the walk ends before the depth that the selected rule
needs. -/
theorem shortHistory_iff_of_depth :
    (∃ rule height depth,
      (checkSelected p s parent header).result = .error (.shortHistory rule height depth)) ↔
    ∃ depth, (p.ruleAt parent.height parent.bits header.time).neededDepth? p = some depth ∧
      s.back depth parent = .ok none := by
  constructor
  · rintro ⟨rule, height, depth, h⟩
    rcases violation_or_hindered h with ⟨cause, hcause⟩ | hhindered
    · cases hcause
    · generalize p.ruleAt parent.height parent.bits header.time = selected at hhindered
      cases hhindered with
      | shortHistory hdepth hback => exact ⟨depth, hdepth, hback⟩
      | window hends hwindow =>
          rcases Params.windowTarget_eq_error hwindow with he | he
          · cases he
          · cases he
  · rintro ⟨depth, hdepth, hback⟩
    exact ⟨_, _, depth, result_checkSelected_of_error (Rule.demand_of_short hdepth hback)⟩

/-- **On a complete history, only the sliding window can miss any**, and it does so exactly
below height 146.  The retarget finds the start of its interval wherever it is selected. -/
theorem shortHistory_iff_of_complete (hparent : parent.height < .top) (hs : s.Complete parent) :
    ((∃ rule height depth,
      (checkSelected p s parent header).result = .error (.shortHistory rule height depth)) ↔
      p.ruleAt parent.height parent.bits header.time = .slidingWindow ∧
        parent.height.toNat < 146) ∧
    (p.ruleAt parent.height parent.bits header.time = .retarget →
      ∃ first, s.back (p.interval.value - 1) parent = .ok (some first) ∧
        first.height.startsInterval p.interval.value) := by
  constructor
  · rw [shortHistory_iff_of_depth]
    constructor
    · rintro ⟨depth, hdepth, hback⟩
      have hlow := (hs.back_eq_none_iff hparent).1 hback
      generalize hrule : p.ruleAt parent.height parent.bits header.time = rule at hdepth
      cases rule with
      | slidingWindow =>
          cases hdepth
          exact ⟨rfl, hlow⟩
      | retarget =>
          cases hdepth
          have henough := Retarget.depth_le hparent (Params.startsInterval_of_ruleAt hrule)
          omega
      | emergency => cases hdepth
      | minimalAfterGap => cases hdepth
      | returnFromMinimal => cases hdepth
      | stayMinimal => cases hdepth
      | unchecked => cases hdepth
    · rintro ⟨hrule, hlow⟩
      refine ⟨SlidingWindow.depth, by rw [hrule]; rfl, ?_⟩
      exact (hs.back_eq_none_iff hparent).2 hlow
  · intro hrule
    have hstart := Params.startsInterval_of_ruleAt hrule
    obtain ⟨first, hfirst⟩ := hs.back_of_le hparent (Retarget.depth_le hparent hstart)
    exact ⟨first, hfirst, Retarget.startsInterval_of_back hparent hstart hfirst⟩

/-- The main network, if the sliding window applied from genesis on. -/
def earlyWindow : Params := { Params.preset .mainnet with windowFrom := .genesis }

theorem ruleAt_earlyWindow (height : Height) (bits : Compact) (time : Timestamp) :
    earlyWindow.ruleAt height bits time = .slidingWindow := by
  have hheight : earlyWindow.windowFrom ≤ height := Nat.zero_le _
  rw [Params.ruleAt, if_pos hheight]
  rfl

/-- The main network, if an interval were a day. -/
def dailyIntervals : Params :=
  { Params.preset .mainnet with interval := ⟨144, by decide, by decide⟩ }

/-- Blocks at the limit, one second apart. -/
def limitBlocks (count : Nat) : List (Timestamp × Compact) :=
  (List.range count).map fun n =>
    (⟨n % (1 <<< 32), Nat.mod_lt _ (by decide)⟩, Network.mainnet.limitBits)

/-- The window lacks history on a block at height 145, and no more on the next.  With intervals of
a day, the first retarget takes place on a block at height 143 and goes back to genesis. -/
theorem shortHistory_iff_of_complete_limit :
    (∃ c, MemoryChain.grown (limitBlocks 146) = some c ∧ ∀ header, ∃ rule height depth,
      (checkSelected earlyWindow c.store c.tip.block header).result =
        .error (.shortHistory rule height depth)) ∧
    (∃ c, MemoryChain.grown (limitBlocks 147) = some c ∧ ∀ header, ¬ ∃ rule height depth,
      (checkSelected earlyWindow c.store c.tip.block header).result =
        .error (.shortHistory rule height depth)) ∧
    ∃ c, MemoryChain.grown (limitBlocks 144) = some c ∧ ∃ first,
      c.store.back 143 c.tip.block = .ok (some first) ∧ first.height.startsInterval 144 := by
  refine ⟨?low, ?high, ?day⟩
  case low =>
    have hgrown : (MemoryChain.grown (limitBlocks 146)).map (·.tip.block.height) =
        some ⟨145, by decide⟩ := by decide +kernel
    obtain ⟨c, hc, hintact, hheight⟩ := MemoryChain.Intact.of_grown_map hgrown
    refine ⟨c, hc, fun header => ?_⟩
    refine (shortHistory_iff_of_complete hintact.height_lt hintact.complete).1.2 ⟨?_, ?_⟩
    · exact ruleAt_earlyWindow ..
    · rw [hheight]
      decide
  case high =>
    have hgrown : (MemoryChain.grown (limitBlocks 147)).map (·.tip.block.height) =
        some ⟨146, by decide⟩ := by decide +kernel
    obtain ⟨c, hc, hintact, hheight⟩ := MemoryChain.Intact.of_grown_map hgrown
    refine ⟨c, hc, fun header hshort => ?_⟩
    have hlow := ((shortHistory_iff_of_complete hintact.height_lt hintact.complete).1.1 hshort).2
    rw [hheight] at hlow
    exact absurd hlow (by decide)
  case day =>
    have hgrown : (MemoryChain.grown (limitBlocks 144)).map (·.tip.block.height) =
        some ⟨143, by decide⟩ := by decide +kernel
    obtain ⟨c, hc, hintact, hheight⟩ := MemoryChain.Intact.of_grown_map hgrown
    refine ⟨c, hc, (@shortHistory_iff_of_complete dailyIntervals _ _ c.tip.block.toHeader
      hintact.height_lt hintact.complete).2 ?_⟩
    rw [hheight]
    rfl

end DifficultyRules
