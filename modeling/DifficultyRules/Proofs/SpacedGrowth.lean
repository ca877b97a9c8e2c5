/-
# `DifficultyRules.Proofs.SpacedGrowth` — how far a chain can be extended at a spacing

`c.extend count spacing bits` appends blocks one by one, each `spacing` seconds after the
one before it.  Times have 32 bits, so with a time `t` of the tip there is room for

    (2 ^ 32 - 1 - t) / spacing

blocks, and for any number of them without a spacing.  A run that is asked for more
appends those and halts at the next one, before it draws a name for it.

What a run leaves behind is described block by block (`SpacedGrowth`): the added blocks
stand above the others, unmarked, under consecutive names, and each is appended on the one
before it.  The others stay as they were, with their marks.

A run of `m + n` blocks is one of `m` and then one of `n` (`applyTimes_add`).  So the run
that halts is a run that fits, to the edge, and then a step for which there is no time
(`extend_of_overflow`).  The main statement is `extend_fitting`.
-/
import DifficultyRules.MemoryChain.Growth
import DifficultyRules.Params

namespace DifficultyRules
namespace MemoryChain

variable {c d next : MemoryChain} {count spacing m : Nat} {bits : Compact} {added : List Entry}

/-! ## Runs in parts -/

/-- A run that has not halted goes on from where it has come. -/
theorem applyTimes_add {op : MemoryChain → Except Halt MemoryChain}
    (h : applyTimes op m c = (d, none)) (n : Nat) :
    applyTimes op (m + n) c = applyTimes op n d := by
  induction m generalizing c with
  | zero =>
      cases h
      rw [Nat.zero_add]
  | succ m ih =>
      rw [Nat.succ_add, applyTimes]
      rw [applyTimes] at h
      split
      · next hop =>
          rw [hop] at h
          cases h
      · next c' hop =>
          rw [hop] at h
          exact ih h

/-- Without a time for the next block, nothing is appended. -/
theorem extend_of_overflow (h : 1 <<< 32 ≤ c.tip.block.time.seconds + spacing) (bits : Compact) :
    c.extend (count + 1) spacing bits = (c, some .timeOverflow) := by
  have hbuild : c.build { spacing := some spacing, bits := some bits } = .error .timeOverflow := by
    simp only [build, Draft.timeOn, Timestamp.after?, Timestamp.ofNat?, dif_neg (Nat.not_lt.2 h)]
  rw [extend, applyTimes, hbuild]

/-! ## What a run leaves behind -/

/-- The chain `d` is `c` with the blocks `added` on top of it, the oldest first. -/
structure SpacedGrowth (spacing : Nat) (bits : Compact) (c : MemoryChain) (added : List Entry)
    (d : MemoryChain) : Prop where
  /-- Below the added blocks, nothing has changed. -/
  entries : d.entries = added.reverse ++ c.entries
  tip : (c.tip :: added)[added.length]? = some d.tip
  /-- One name is used up for each block, and no more. -/
  nextId : d.nextId = c.nextId + added.length
  block : ∀ (i : Nat) (e : Entry), added[i]? = some e →
    e.block.time.seconds = c.tip.block.time.seconds + (i + 1) * spacing ∧ e.block.bits = bits ∧
      e.block.id.value = c.nextId + i ∧ e.failing = false ∧ e.forgotten = false
  /-- Each block is appended on the one before it, the first of them on the tip. -/
  follows : ∀ (i : Nat) (e older : Entry), added[i]? = some e → (c.tip :: added)[i]? = some older →
    e.block.parent = older.block.id ∧ e.block.height = older.block.height.next ∧
      e.block.work = older.block.work + bits.work

namespace SpacedGrowth

theorem refl (spacing : Nat) (bits : Compact) (c : MemoryChain) :
    c.SpacedGrowth spacing bits [] c where
  entries := rfl
  tip := rfl
  nextId := rfl
  block i e he := by cases he
  follows i e older he := by cases he

/-- One block comes first, and the others on top of it. -/
theorem cons {h : c.tip.block.time.seconds + spacing < 1 <<< 32}
    (hnext : c.append ⟨c.tip.block.time.seconds + spacing, h⟩ bits = .ok next)
    (hd : next.SpacedGrowth spacing bits added d) :
    c.SpacedGrowth spacing bits (next.tip :: added) d := by
  obtain ⟨hentries, hnextId, htip⟩ := append_eq_ok hnext
  refine ⟨?entries, hd.tip, ?nextId, ?block, ?follows⟩
  case entries =>
    rw [hd.entries, hentries, List.reverse_cons, List.append_assoc]
    rfl
  case nextId =>
    rw [hd.nextId, hnextId, List.length_cons]
    omega
  case block =>
    intro i e he
    cases i with
    | zero =>
        cases he
        rw [htip]
        exact ⟨by rw [Nat.zero_add, Nat.one_mul], rfl, rfl, rfl, rfl⟩
    | succ i =>
        obtain ⟨htime, hbits, hname, hmarks⟩ := hd.block i e he
        have hlater : next.tip.block.time.seconds = c.tip.block.time.seconds + spacing := by
          rw [htip]
        refine ⟨?_, hbits, ?_, hmarks⟩
        · rw [htime, hlater, Nat.add_mul (i + 1) 1 spacing, Nat.one_mul]
          omega
        · rw [hname, hnextId]
          omega
  case follows =>
    intro i e older he holder
    cases i with
    | zero =>
        cases he
        cases holder
        rw [htip]
        exact ⟨rfl, rfl, rfl⟩
    | succ i => exact hd.follows i e older he holder

/-- The new tip is as much later as there are spacings. -/
theorem time_tip (h : c.SpacedGrowth spacing bits added d) :
    d.tip.block.time.seconds = c.tip.block.time.seconds + added.length * spacing := by
  have htip := h.tip
  cases hlength : added.length with
  | zero =>
      rw [hlength] at htip
      have hsame : c.tip = d.tip := Option.some.inj htip
      rw [hsame, Nat.zero_mul, Nat.add_zero]
  | succ n =>
      rw [hlength] at htip
      exact (h.block n d.tip htip).1

end SpacedGrowth

/-- A run for which there is room does not halt. -/
theorem exists_extend (htime : c.tip.block.time.seconds + count * spacing < 1 <<< 32)
    (hnames : c.nextId + count < 1 <<< 64) (bits : Compact) :
    ∃ (d : MemoryChain) (added : List Entry), c.extend count spacing bits = (d, none) ∧
      added.length = count ∧ c.SpacedGrowth spacing bits added d := by
  induction count generalizing c with
  | zero => exact ⟨c, [], rfl, rfl, .refl spacing bits c⟩
  | succ count ih =>
      rw [Nat.succ_mul] at htime
      have hlater : c.tip.block.time.seconds + spacing < 1 <<< 32 := by omega
      obtain ⟨next, hnext, hrun⟩ := extend_succ_of_lt hlater (by omega) count bits
      obtain ⟨-, hnextId, htip⟩ := append_eq_ok hnext
      have htime' : next.tip.block.time.seconds + count * spacing < 1 <<< 32 := by
        rw [htip]
        show c.tip.block.time.seconds + spacing + count * spacing < 1 <<< 32
        omega
      obtain ⟨d, added, hd, hlength, hgrowth⟩ := ih htime' (by omega)
      exact ⟨d, next.tip :: added, hrun.trans hd, congrArg (· + 1) hlength, hgrowth.cons hnext⟩

/-- **A run appends as many blocks as fit.**  If the last one still has a time, and names do not
run out, it appends all of them.  Otherwise it halts for want of a time, and has appended the
blocks for which there was one.  Without a spacing there is always a time. -/
theorem extend_fitting (c : MemoryChain) (count spacing : Nat) (bits : Compact) :
    (c.tip.block.time.seconds + count * spacing ≤ 1 <<< 32 - 1 → c.nextId + count < 1 <<< 64 →
      ∃ (d : MemoryChain) (added : List Entry),
        c.extend count spacing bits = (d, none) ∧ added.length = count ∧
          c.SpacedGrowth spacing bits added d) ∧
    (1 <<< 32 - 1 < c.tip.block.time.seconds + count * spacing →
      c.nextId + (1 <<< 32 - 1 - c.tip.block.time.seconds) / spacing < 1 <<< 64 →
      ∃ (d : MemoryChain) (added : List Entry),
        c.extend count spacing bits = (d, some .timeOverflow) ∧
          added.length = (1 <<< 32 - 1 - c.tip.block.time.seconds) / spacing ∧
          c.SpacedGrowth spacing bits added d) := by
  refine ⟨fun htime hnames => exists_extend (by omega) hnames bits, fun htime hnames => ?_⟩
  have hnow := c.tip.block.time.lt
  have hspacing : 0 < spacing := by
    refine Nat.pos_of_ne_zero fun hzero => ?_
    rw [hzero, Nat.mul_zero] at htime
    omega
  generalize hroom : (1 <<< 32 - 1 - c.tip.block.time.seconds) / spacing = room at hnames ⊢
  have hfits : room * spacing ≤ 1 <<< 32 - 1 - c.tip.block.time.seconds :=
    (Nat.le_div_iff_mul_le hspacing).1 (Nat.le_of_eq hroom.symm)
  have hedge : 1 <<< 32 - 1 - c.tip.block.time.seconds < (room + 1) * spacing :=
    (Nat.div_lt_iff_lt_mul hspacing).1 (hroom ▸ Nat.lt_succ_self room)
  have hcount : room < count := by
    refine hroom ▸ (Nat.div_lt_iff_lt_mul hspacing).2 ?_
    omega
  have hrun : c.tip.block.time.seconds + room * spacing < 1 <<< 32 := by omega
  obtain ⟨d, added, hd, hlength, hgrowth⟩ := exists_extend hrun hnames bits
  refine ⟨d, added, ?_, hlength, hgrowth⟩
  -- the run has come to the edge, and one block more is already too late
  obtain ⟨n, rfl⟩ := Nat.exists_eq_add_of_lt hcount
  have hlate : 1 <<< 32 ≤ d.tip.block.time.seconds + spacing := by
    rw [Nat.succ_mul] at hedge
    rw [hgrowth.time_tip, hlength]
    omega
  rw [Nat.add_assoc, extend, applyTimes_add hd (n + 1)]
  exact extend_of_overflow hlate bits

/-- Fifteen hundred seconds before the end of times, there is room for two blocks at a spacing of
seven hundred. -/
theorem extend_fitting_lastBlocks :
    ∃ c, startAt .genesis ⟨4294965795, by decide⟩ Network.mainnet.limitBits = .ok c ∧
      (∃ (d : MemoryChain) (added : List Entry),
        c.extend 2 700 Network.mainnet.limitBits = (d, none) ∧ added.length = 2 ∧
          c.SpacedGrowth 700 Network.mainnet.limitBits added d) ∧
      ∃ (d : MemoryChain) (added : List Entry),
        c.extend 5 700 Network.mainnet.limitBits = (d, some .timeOverflow) ∧ added.length = 2 ∧
          c.SpacedGrowth 700 Network.mainnet.limitBits added d := by
  obtain ⟨c, hc⟩ : ∃ c, startAt .genesis ⟨4294965795, by decide⟩ Network.mainnet.limitBits =
      .ok c := ⟨_, rfl⟩
  obtain ⟨-, -, hnext, htip⟩ := startAt_eq_ok hc
  have htime : c.tip.block.time.seconds = 4294965795 := by rw [htip]
  have hroom : (1 <<< 32 - 1 - c.tip.block.time.seconds) / 700 = 2 := by
    rw [htime]
    decide
  have hhalts := (extend_fitting c 5 700 Network.mainnet.limitBits).2 (by omega) (by omega)
  rw [hroom] at hhalts
  exact ⟨c, hc, (extend_fitting c 2 700 _).1 (by omega) (by omega), hhalts⟩

end MemoryChain
end DifficultyRules
