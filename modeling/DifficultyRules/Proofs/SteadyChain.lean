/-
# `DifficultyRules.Proofs.SteadyChain` — a chain on schedule keeps its difficulty

Blocks of one difficulty that come exactly when they should give no reason to change
the difficulty.  The sliding window does not see difficulties, however.  It sees the
work of its blocks, and turns it into a target, and there are two divisions on the way
that truncate.  So the target of such a window is in general not that of its blocks.

It is easier, by no more than the work goes into the target.

    t  ≤  2 ^ 256 / work t - 1  ≤  t + t / work t          `div_work_sub_one_between`

This is less than what gets lost when a target is encoded.  No target has as many as
`2 ^ 23` of its own grains, and one below `2 ^ 232` takes more work than that, so the
drift is less than one grain (`Target.normalized_of_work`).  A cap at the limit only
brings the two targets closer to each other.

For the chain there is an invariant, `MemoryChain.Steady`.  Along a run of blocks on
schedule it is kept, and the run does not halt as long as there are times and names
(`Steady.extend`).  As the times increase, the middle one of three blocks is the second,
and the window has exactly 144 blocks and takes 144 spacings (`Steady.ends`).

The main statement is `accepted_iff_on_schedule`.
-/
import DifficultyRules.Proofs.Rounding
import DifficultyRules.Proofs.WindowWork
import DifficultyRules.Proofs.WithinLimit

namespace DifficultyRules

/-! ## The drift of a target -/

open DifficultyRules.Compact in
/-- The target for the work of an encoded one is rounded down to it again. -/
theorem Target.normalized_of_work {c : Compact} {t limit : Target} (hc : c.toTarget = .ok t)
    (hlimit : t ≤ limit) (ht : t.value < 1 <<< 232) :
    (capped ((1 <<< 256) / t.work - 1) limit).normalized = t := by
  obtain ⟨hlow, hhigh⟩ := t.div_work_sub_one_between
  have hwork : 0x800000 ≤ t.work := by
    rw [work, Nat.le_div_iff_mul_le (Nat.succ_pos _)]
    omega
  have hdrift : t.value / t.work < grain t.value := by
    rw [Nat.div_lt_iff_lt_mul t.work_pos]
    calc t.value < grain t.value * 0x800000 := lt_grain_mul _
      _ ≤ grain t.value * t.work := Nat.mul_le_mul_left _ hwork
  refine normalized_eq_of_lt_add_grain hc (le_capped_iff.2 ⟨hlow, hlimit⟩) ?_
  rw [value_capped]
  omega

/-! ## A window on schedule -/

/-- A window that took its intended time asks for the work of one of its blocks. -/
theorem Params.windowWork_of_schedule {p : Params} {first last : Block} {work : Nat}
    (hspacing : 288 * p.spacing.value ≤ 1 <<< 64 - 1)
    (htime : last.time.seconds = first.time.seconds + 144 * p.spacing.value)
    (hwork : last.work = first.work + 144 * work) : p.windowWork first last = work := by
  have htimespan : p.windowTimespan first last = 144 * p.spacing.value := by
    rw [windowTimespan_eq]
    omega
  calc p.windowWork first last
      = 144 * work * p.spacing.value / (144 * p.spacing.value) := by
        rw [windowWork, htimespan, hwork, Nat.add_sub_cancel_left]
    _ = work * (144 * p.spacing.value) / (144 * p.spacing.value) := by
        rw [Nat.mul_comm 144 work, Nat.mul_assoc]
    _ = work := Nat.mul_div_cancel _ (Nat.mul_pos (by decide) p.spacing.pos)

/-! ## Steady chains -/

namespace MemoryChain

variable {c d : MemoryChain} {time : Timestamp} {bits : Compact} {spacing count i : Nat}
  {e f : Entry}

/-- All blocks have these bits, and each is `spacing` seconds later than the one before it. -/
structure Steady (spacing : Nat) (bits : Compact) (c : MemoryChain) : Prop where
  intact : c.Intact
  bits_eq : ∀ e ∈ c.entries, e.block.bits = bits
  time_add : ∀ i e, c.entries[i]? = some e →
    e.block.time.seconds + i * spacing = c.tip.block.time.seconds

namespace Steady

theorem start (h : startAt .genesis time bits = .ok c) : c.Steady spacing bits := by
  obtain ⟨-, hentries, -, htip⟩ := startAt_eq_ok h
  refine ⟨.start h, ?_, ?_⟩
  · intro e he
    rw [hentries, List.mem_singleton] at he
    rw [he, htip]
  · intro i e he
    rw [hentries] at he
    cases i with
    | zero =>
        cases he
        rw [Nat.zero_mul, Nat.add_zero]
    | succ i => cases he

theorem append (h : c.Steady spacing bits)
    (htime : time.seconds = c.tip.block.time.seconds + spacing)
    (hd : c.append time bits = .ok d) : d.Steady spacing bits := by
  obtain ⟨hentries, -, htip⟩ := append_eq_ok hd
  refine ⟨h.intact.append hd, ?_, ?_⟩
  · intro e he
    rw [hentries, List.mem_cons] at he
    rcases he with rfl | he
    · rw [htip]
    · exact h.bits_eq e he
  · intro i e he
    have hlater : d.tip.block.time.seconds = c.tip.block.time.seconds + spacing := by
      rw [htip, htime]
    rw [hentries] at he
    cases i with
    | zero =>
        cases he
        rw [Nat.zero_mul, Nat.add_zero]
    | succ i =>
        have := h.time_add i e he
        rw [Nat.succ_mul]
        omega

/-- A run of blocks on schedule does not halt before the times or the names end. -/
theorem extend (h : c.Steady spacing bits)
    (htime : c.tip.block.time.seconds + count * spacing < 1 <<< 32)
    (hnames : c.nextId + count < 1 <<< 64) :
    ∃ d, c.extend count spacing bits = (d, none) ∧ d.Steady spacing bits ∧
      d.entries.length = c.entries.length + count := by
  induction count generalizing c with
  | zero => exact ⟨c, rfl, h, rfl⟩
  | succ count ih =>
      -- one block is built first, and what is left of times and names suffices for the others
      rw [Nat.succ_mul] at htime
      have hlater : c.tip.block.time.seconds + spacing < 1 <<< 32 := by omega
      obtain ⟨next, hnext, hrun⟩ := extend_succ_of_lt hlater (by omega) count bits
      obtain ⟨hentries, hnextId, htip⟩ := append_eq_ok hnext
      have htime : next.tip.block.time.seconds + count * spacing < 1 <<< 32 := by
        rw [htip]
        show c.tip.block.time.seconds + spacing + count * spacing < 1 <<< 32
        omega
      obtain ⟨d, hd, hsteady, hlength⟩ := ih (h.append rfl hnext) htime (by omega)
      refine ⟨d, hrun.trans hd, hsteady, ?_⟩
      rw [hlength, hentries, List.length_cons, Nat.add_assoc, Nat.add_comm 1 count]

/-! ## The window of a steady chain -/

/-- The block with the middle time is the second of the three. -/
theorem suitable (h : c.Steady spacing bits) (he : c.entries[i]? = some e)
    (hf : c.entries[i + 1]? = some f) (hlength : i + 2 < c.entries.length) :
    c.store.suitable e.block = .ok (some f.block) := by
  have hg : c.entries[i + 2]? = some c.entries[i + 2] := List.getElem?_eq_getElem hlength
  have htwo := h.intact.linked.back_of_getElem? h.intact.unmarked he hg
  have hone := h.intact.linked.back_of_getElem? h.intact.unmarked he hf
  obtain ⟨p, hp, hsuitable⟩ := Store.suitable_of_back htwo
  rw [hone] at hp
  cases hp
  have hte := h.time_add i e he
  have htf := h.time_add (i + 1) f hf
  have htg := h.time_add (i + 2) _ hg
  rw [Nat.add_mul] at htf htg
  have hbefore : c.entries[i + 2].block.time.seconds ≤ f.block.time.seconds := by omega
  have hafter : f.block.time.seconds ≤ e.block.time.seconds := by omega
  rw [hsuitable, medianBlock_of_between (.inl ⟨hbefore, hafter⟩)]

/-- The window reaches over 144 blocks. -/
theorem ends (h : c.Steady spacing bits) (hwork : 0 < bits.work)
    (hlength : 147 ≤ c.entries.length) :
    ∃ first last, SlidingWindow.Ends c.store c.tip.block first last ∧
      last.time.seconds = first.time.seconds + 144 * spacing ∧
      last.work = first.work + 144 * bits.work := by
  have hlast : c.entries[1]? = some c.entries[1] := List.getElem?_eq_getElem (by omega)
  have hstart : c.entries[144]? = some c.entries[144] := List.getElem?_eq_getElem (by omega)
  have hfirst : c.entries[145]? = some c.entries[145] := List.getElem?_eq_getElem (by omega)
  refine ⟨c.entries[145].block, c.entries[1].block, ?ends, ?time, ?work⟩
  case ends =>
    refine ⟨h.suitable (i := 0) rfl hlast (by omega), c.entries[144].block,
      h.intact.back_of_getElem? hstart, h.suitable hstart hfirst (by omega)⟩
  case time =>
    have := h.time_add 1 _ hlast
    have := h.time_add 145 _ hfirst
    omega
  case work =>
    have hadds : c.store.AddsWork bits.work bits.work 146 c.tip.block := by
      refine h.intact.addsWork hwork (fun e he => ?_) 146
      rw [h.bits_eq e he]
      exact ⟨Nat.le_refl _, Nat.le_refl _⟩
    obtain ⟨hlow, hhigh⟩ := hadds.between (i := 1) (k := 144) (by decide)
      (h.intact.back_of_getElem? hlast) (h.intact.back_of_getElem? hfirst)
    omega

/-- The sliding window accepts what has the difficulty of the chain. -/
theorem check_eq_ok_iff {p : Params} {t : Target} {header : Header}
    (h : c.Steady p.spacing.value bits) (hlength : 147 ≤ c.entries.length)
    (hlimit : p.limit.value < 1 <<< 232) (hbits : bits.toTarget = .ok t) (ht : t ≤ p.limit) :
    (Rule.slidingWindow.check p c.store c.tip.block header).result = .ok () ↔
      header.bits.sameDifficulty bits := by
  have hwork : bits.work = t.work := Compact.work_of_toTarget hbits
  have hpos : 0 < bits.work := by
    rw [hwork]
    exact t.work_pos
  obtain ⟨first, last, hends, htime, hdone⟩ := h.ends hpos hlength
  -- 144 spacings lie between two times of 32 bits, so 288 are far from the cap
  have hspacing : 288 * p.spacing.value ≤ 1 <<< 64 - 1 := by
    have := last.time.lt
    omega
  have hwindow : p.windowWork first last = t.work := by
    rw [Params.windowWork_of_schedule hspacing htime hdone, hwork]
  have htarget := Params.windowTarget_of_work (hends.height_lt h.intact.height_lt)
    (by rw [hwindow]; exact Nat.ne_of_gt t.work_pos)
  rw [hends.check_eq_ok_iff htarget, hwindow,
    Target.normalized_of_work hbits ht (Nat.lt_of_le_of_lt ht hlimit),
    Compact.sameDifficulty_iff_of_toTarget hbits]

end Steady
end MemoryChain

/-- **A chain on schedule keeps its difficulty.**  With a limit below `2 ^ 232`, which is that of
the main and the test network, a chain of one difficulty can be grown on schedule as long as the
times have 32 bits.  After 146 blocks or more, the sliding window accepts on its tip exactly the
bits of the same difficulty. -/
theorem accepted_iff_on_schedule :
    (∀ network, network ≠ .regtest → (Params.preset network).limit.value < 1 <<< 232) ∧
    ∀ (p : Params) (bits : Compact) (t : Target) (time : Timestamp) (count : Nat),
      p.limit.value < 1 <<< 232 → bits.toTarget = .ok t → t ≤ p.limit → 146 ≤ count →
      time.seconds + count * p.spacing.value < 1 <<< 32 →
      ∃ start c, MemoryChain.startAt .genesis time bits = .ok start ∧
        start.extend count p.spacing.value bits = (c, none) ∧
        ∀ header, (Rule.slidingWindow.check p c.store c.tip.block header).result = .ok () ↔
          header.bits.sameDifficulty bits := by
  refine ⟨?_, ?_⟩
  · intro network hnetwork
    cases network with
    | mainnet => decide
    | testnet => decide
    | regtest => exact absurd rfl hnetwork
  · intro p bits t time count hlimit hbits ht hcount htime
    have hnames : count ≤ count * p.spacing.value := Nat.le_mul_of_pos_right _ p.spacing.pos
    obtain ⟨start, hstart⟩ : ∃ start, MemoryChain.startAt .genesis time bits = .ok start :=
      ⟨_, rfl⟩
    obtain ⟨-, hentries, hnextId, htip⟩ := MemoryChain.startAt_eq_ok hstart
    have hsteady : start.Steady p.spacing.value bits := .start hstart
    have htime : start.tip.block.time.seconds + count * p.spacing.value < 1 <<< 32 := by
      rw [htip]
      exact htime
    obtain ⟨c, hc, hsteady, hlength⟩ := hsteady.extend htime (by omega)
    rw [hentries, List.length_singleton] at hlength
    refine ⟨start, c, hstart, hc, fun header => ?_⟩
    exact hsteady.check_eq_ok_iff (by omega) hlimit hbits ht

/-- On the main network, two hundred blocks keep a difficulty above the least. -/
theorem accepted_iff_on_schedule_mainnet :
    ∃ start c, MemoryChain.startAt .genesis ⟨1500000000, by decide⟩ (minimalRunBits 0) =
        .ok start ∧
      start.extend 200 600 (minimalRunBits 0) = (c, none) ∧
      ∀ header, (Rule.slidingWindow.check (.preset .mainnet) c.store c.tip.block header).result =
          .ok () ↔ header.bits.sameDifficulty (minimalRunBits 0) := by
  obtain ⟨t, ht, hlimit⟩ : (minimalRunBits 0).WithinLimit Network.mainnet.limit := by decide
  exact accepted_iff_on_schedule.2 (.preset .mainnet) _ t _ 200
    (accepted_iff_on_schedule.1 .mainnet (by decide)) ht hlimit (by decide) (by decide)

end DifficultyRules
