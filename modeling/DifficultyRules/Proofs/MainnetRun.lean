/-
# `DifficultyRules.Proofs.MainnetRun` — the main network never lets the difficulty go

On the main network every block must have one difficulty, with one exception:
where the emergency rule finds fewer than sixteen blocks below the parent, it
lets everything pass.  A single block that passes so could carry any difficulty
at all, and all later ones would follow it.

A chain that starts at the limit never comes there.  The emergency rule is not
selected on a parent at the limit, and the first blocks are all at the limit.

    retarget         not before the interval is over, which has 17 blocks at least
    sliding window   finds no window below height 144, and accepts nothing
    at the limit     demands the difficulty of the parent, which is the limit

When the emergency rule is first selected, the parent is above height sixteen, so
it finds its history.  The induction needs this as part of what a run keeps
(`RunInvariant.bootstrap`), together with the facts that make the chain a store
with a complete history, and the bound on all difficulties, which the rules that
repeat the parent's difficulty only hand on.

The main statement is `AcceptedRun.difficulty_determined`.
-/
import DifficultyRules.Proofs.CompleteHistory
import DifficultyRules.Proofs.WithinLimit

namespace DifficultyRules
namespace MemoryChain

variable {p : Params} {c d : MemoryChain} {header : Header} {time : Timestamp} {bits : Compact}
  {demand : Demand}

/-! ## Runs of accepted blocks -/

/-- A chain that starts at the limit, and grows by blocks that are accepted on its tip.
Candidates may be drawn up in between. -/
inductive AcceptedRun (p : Params) : MemoryChain → Prop
  | start {c : MemoryChain} {time : Timestamp} {bits : Compact} : bits.encodes p.limit →
      startAt .genesis time bits = .ok c → AcceptedRun p c
  | candidate {c d : MemoryChain} {time : Timestamp} {bits : Compact} {header : Header} :
      AcceptedRun p c → c.candidate time bits = .ok (header, d) → AcceptedRun p d
  | append {c d : MemoryChain} {header : Header} : AcceptedRun p c →
      (checkSelected p c.store c.tip.block header).result = .ok () →
      c.append header.time header.bits = .ok d → AcceptedRun p d

/-- Draws up blocks of these times and bits, and appends them as long as they are accepted. -/
def growAccepted (p : Params) : List (Timestamp × Compact) → MemoryChain → Option MemoryChain
  | [], c => some c
  | (time, bits) :: blocks, c =>
    match c.candidate time bits with
    | .error _ => none
    | .ok (header, c) =>
      match (checkSelected p c.store c.tip.block header).result,
        c.append header.time header.bits with
      | .ok (), .ok d => growAccepted p blocks d
      | _, _ => none

theorem AcceptedRun.of_growAccepted {blocks : List (Timestamp × Compact)} (h : c.AcceptedRun p)
    (hd : growAccepted p blocks c = some d) : d.AcceptedRun p := by
  induction blocks generalizing c with
  | nil =>
      cases hd
      exact h
  | cons block blocks ih =>
      rw [growAccepted] at hd
      split at hd
      · cases hd
      · next hcandidate =>
          split at hd
          · next haccepted happend =>
              exact ih (.append (.candidate h hcandidate) haccepted happend) hd
          · cases hd

/-! ## What a run keeps -/

/-- What holds of a chain at every stage of a run. -/
structure RunInvariant (p : Params) (c : MemoryChain) : Prop where
  linked : c.Linked
  unmarked : c.Unmarked
  rooted : c.tip.block.height.toNat + 1 = c.entries.length
  withinLimit : ∀ e ∈ c.entries, e.block.bits.WithinLimit p.limit
  bootstrap : c.tip.block.height.toNat ≤ Emergency.depth → c.tip.block.bits.encodes p.limit

namespace RunInvariant

theorem intact (h : c.RunInvariant p) : c.Intact :=
  ⟨h.linked, h.unmarked, h.rooted⟩

theorem start (hbits : bits.encodes p.limit) (h : startAt .genesis time bits = .ok c) :
    c.RunInvariant p := by
  obtain ⟨-, hentries, -, htip⟩ := startAt_eq_ok h
  obtain ⟨hlinked, hunmarked, hrooted⟩ := Intact.start h
  refine ⟨hlinked, hunmarked, hrooted, ?_, fun _ => ?_⟩
  · intro e he
    rw [hentries, List.mem_singleton] at he
    rw [he, htip]
    exact Compact.withinLimit_of_encodes hbits
  · rw [htip]
    exact hbits

theorem candidate (h : c.RunInvariant p) (hd : c.candidate time bits = .ok (header, d)) :
    d.RunInvariant p := by
  obtain ⟨hentries, htip, -⟩ := candidate_eq_ok hd
  obtain ⟨hlinked, hunmarked, hrooted⟩ := h.intact.candidate hd
  refine ⟨hlinked, hunmarked, hrooted, ?_, ?_⟩
  · rw [hentries]
    exact h.withinLimit
  · rw [htip]
    exact h.bootstrap

theorem tip_withinLimit (h : c.RunInvariant p) : c.tip.block.bits.WithinLimit p.limit :=
  h.withinLimit c.tip List.mem_cons_self

/-- The emergency rule finds its history whenever it is selected. -/
theorem back_depth (h : c.RunInvariant p) (hbits : c.tip.block.bits.encodes p.limit = false) :
    ∃ far, c.store.back Emergency.depth c.tip.block = .ok (some far) := by
  refine h.intact.complete.back_of_le h.intact.height_lt ?_
  refine Nat.le_of_lt (Nat.lt_of_not_le fun hlow => ?_)
  rw [h.bootstrap hlow] at hbits
  cases hbits

/-- The rule that is selected at the tip leaves no exception. -/
theorem withinLimit_of_demand (h : c.RunInvariant p) (hnetwork : p.network = .mainnet)
    (hdemand : ((p.ruleAt c.tip.block.height c.tip.block.bits time).demand p c.store c.tip.block
      time).result = .ok demand) : demand.WithinLimit p c.tip.block := by
  have hrule := p.ruleAt_mainnet hnetwork c.tip.block.height c.tip.block.bits time
  generalize p.ruleAt c.tip.block.height c.tip.block.bits time = rule at hrule hdemand
  cases hrule with
  | slidingWindow => exact SlidingWindow.withinLimit_of_demand hdemand
  | retarget => exact Retarget.withinLimit_of_demand hdemand
  | stayMinimal hbits =>
      rw [MinimalDifficulty.demand_of_staying hbits hdemand]
      exact .sameAs _
  | emergency hbits =>
      obtain ⟨far, hfar⟩ := h.back_depth hbits
      exact Emergency.withinLimit_of_demand hfar hdemand

/-- No interval ends, and no window is complete, where the emergency rule would lack history. -/
theorem demand_of_height_lt (h : c.RunInvariant p) (hnetwork : p.network = .mainnet)
    (hinterval : 17 ≤ p.interval.value) (hlow : c.tip.block.height.toNat < Emergency.depth)
    (hdemand : ((p.ruleAt c.tip.block.height c.tip.block.bits time).demand p c.store c.tip.block
      time).result = .ok demand) : demand = .sameAs c.tip.block.bits .unchanged := by
  have hlimit : c.tip.block.bits.encodes p.limit := h.bootstrap (Nat.le_of_lt hlow)
  have hrule := p.ruleAt_mainnet hnetwork c.tip.block.height c.tip.block.bits time
  generalize p.ruleAt c.tip.block.height c.tip.block.bits time = rule at hrule hdemand
  rw [Emergency.depth, Emergency.reach] at hlow
  cases hrule with
  | slidingWindow =>
      have hlength := SlidingWindow.length_le_of_demand h.intact.height_lt hdemand
      rw [SlidingWindow.length] at hlength
      omega
  | retarget hstart =>
      have hdepth := Retarget.depth_le h.intact.height_lt hstart
      rw [Retarget.depth] at hdepth
      omega
  | stayMinimal => exact MinimalDifficulty.demand_of_staying hlimit hdemand
  | emergency hbits =>
      rw [hlimit] at hbits
      cases hbits

/-- An accepted block has bits that the demand expected. -/
theorem append (h : c.RunInvariant p) (hnetwork : p.network = .mainnet)
    (hinterval : 17 ≤ p.interval.value)
    (haccepted : (checkSelected p c.store c.tip.block header).result = .ok ())
    (hd : c.append header.time header.bits = .ok d) : d.RunInvariant p := by
  obtain ⟨demand, hdemand, hmet⟩ := demand_of_accepted haccepted
  obtain ⟨hentries, -, htip⟩ := append_eq_ok hd
  obtain ⟨hlinked, hunmarked, hrooted⟩ := h.intact.append hd
  refine ⟨hlinked, hunmarked, hrooted, ?_, ?_⟩
  · obtain ⟨expected, hexpected, hlimit⟩ :=
      (h.withinLimit_of_demand hnetwork hdemand).expected h.tip_withinLimit
    intro e he
    rw [hentries, List.mem_cons] at he
    rcases he with rfl | he
    · rw [htip]
      exact hlimit.of_sameDifficulty ((Demand.violation?_eq_none hexpected).1 hmet)
    · exact h.withinLimit e he
  · intro hlow
    rw [htip] at hlow ⊢
    have hlow : c.tip.block.height.toNat < Emergency.depth := by
      rw [Height.toNat_next_of_lt h.intact.height_lt] at hlow
      exact hlow
    rw [h.demand_of_height_lt hnetwork hinterval hlow hdemand] at hmet
    exact Compact.encodes_of_sameDifficulty (h.bootstrap (Nat.le_of_lt hlow))
      ((Demand.violation?_eq_none rfl).1 hmet)

end RunInvariant

theorem AcceptedRun.invariant (hnetwork : p.network = .mainnet)
    (hinterval : 17 ≤ p.interval.value) (h : c.AcceptedRun p) : c.RunInvariant p := by
  induction h with
  | start hbits hstart => exact .start hbits hstart
  | candidate _ hcandidate ih => exact ih.candidate hcandidate
  | append _ haccepted happend ih => exact ih.append hnetwork hinterval haccepted happend

/-! ## The difficulty along a run -/

/-- **Along a run on the main network the difficulty is never free.**  Every block is within the
limit.  At the tip, no block is let pass without a demand, and all bits that are accepted for a
block of one time have equal difficulty. -/
theorem AcceptedRun.difficulty_determined (hnetwork : p.network = .mainnet)
    (hinterval : 17 ≤ p.interval.value) (h : c.AcceptedRun p) :
    (∀ e ∈ c.entries, ∃ t, e.block.bits.toTarget = .ok t ∧ t ≤ p.limit) ∧
    (∀ time, ((p.ruleAt c.tip.block.height c.tip.block.bits time).demand p c.store c.tip.block
      time).result ≠ .ok .anything) ∧
    ∀ header header' : Header, header.time = header'.time →
      (checkSelected p c.store c.tip.block header).result = .ok () →
      (checkSelected p c.store c.tip.block header').result = .ok () →
      header.bits.sameDifficulty header'.bits := by
  have hinv := h.invariant hnetwork hinterval
  refine ⟨hinv.withinLimit, ?_, ?_⟩
  · intro time hfree
    cases hinv.withinLimit_of_demand hnetwork hfree
  · intro header header' htime haccepted haccepted'
    obtain ⟨demand, hdemand, hmet⟩ := demand_of_accepted haccepted
    obtain ⟨demand', hdemand', hmet'⟩ := demand_of_accepted haccepted'
    obtain rfl : demand = demand' := by
      rw [htime, hdemand'] at hdemand
      exact (Except.ok.inj hdemand).symm
    obtain ⟨expected, hexpected, -⟩ :=
      (hinv.withinLimit_of_demand hnetwork hdemand).expected hinv.tip_withinLimit
    have hsame := (Demand.violation?_eq_none hexpected).1 hmet
    have hsame' := (Demand.violation?_eq_none hexpected).1 hmet'
    exact Compact.sameDifficulty_trans hsame (Compact.sameDifficulty_symm hsame')

/-- The main network with the shortest interval that keeps a run from the exception. -/
def shortIntervals : Params :=
  { Params.preset .mainnet with interval := ⟨17, by decide, by decide⟩ }

/-- Sixteen blocks at the limit, and two after them that are four times as difficult. -/
def quickBlocks : List (Timestamp × Compact) :=
  (List.range 18).map fun n =>
    (⟨n * 600 % (1 <<< 32), Nat.mod_lt _ (by decide)⟩,
      if n < 16 then Network.mainnet.limitBits else ⟨0x1c3fffc0, by decide⟩)

/-- At the end of the first interval the difficulty rises, and the emergency rule keeps it there. -/
theorem AcceptedRun.difficulty_determined_quickBlocks :
    ∃ c : MemoryChain, c.AcceptedRun shortIntervals ∧ c.entries.length = 19 ∧
      c.tip.block.bits = ⟨0x1c3fffc0, by decide⟩ ∧
      (∀ e ∈ c.entries, ∃ t, e.block.bits.toTarget = .ok t ∧ t ≤ shortIntervals.limit) ∧
      ∀ header header' : Header, header.time = header'.time →
        (checkSelected shortIntervals c.store c.tip.block header).result = .ok () →
        (checkSelected shortIntervals c.store c.tip.block header').result = .ok () →
        header.bits.sameDifficulty header'.bits := by
  have hgrown : ((startAt .genesis ⟨0, by decide⟩ Network.mainnet.limitBits).toOption.bind
      (growAccepted shortIntervals quickBlocks)).map
        (fun c => (c.entries.length, c.tip.block.bits)) =
          some (19, ⟨0x1c3fffc0, by decide⟩) := by decide +kernel
  obtain ⟨c, hgrown, hc⟩ := Option.map_eq_some_iff.1 hgrown
  obtain ⟨first, hfirst, hgrown⟩ := Option.bind_eq_some_iff.1 hgrown
  have hstart : startAt .genesis ⟨0, by decide⟩ Network.mainnet.limitBits = .ok first := by
    cases hfirst
    rfl
  have hrun : c.AcceptedRun shortIntervals :=
    (AcceptedRun.start (by decide) hstart).of_growAccepted hgrown
  obtain ⟨hlength, hbits⟩ := Prod.mk.inj hc
  obtain ⟨hlimit, -, hdetermined⟩ := hrun.difficulty_determined rfl (by decide)
  exact ⟨c, hrun, hlength, hbits, hlimit, hdetermined⟩

end MemoryChain
end DifficultyRules
