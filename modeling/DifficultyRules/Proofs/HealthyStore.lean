/-
# `DifficultyRules.Proofs.HealthyStore` — on a healthy store, no check ends in a general error

A general error says nothing about the block, and the node cannot go on until
somebody has looked into it.  So it matters that none is ever due to the chain
itself, whatever times and difficulties its blocks have.

A store is `Healthy` if all blocks of the walk are what they were when they were
stored: no lookup fails, every block is within the limit, and adds its own work to
that of its parent.  History may end anywhere, and the times are arbitrary.  Each
reason for an error (`Rule.Hindered`) then falls away, except missing history.

    a failed lookup          there is none on the walk (`Healthy.back_ne_error`)
    bits without a target    the parent is within the limit
    a window without blocks  its first block is always below its last (`Ends.height_lt`)
    a window without work    142 blocks do enough

The last one is a matter of numbers, and it is where the limit must be below
`2 ^ 254`.  Then every block does work 4 at least, and the work of 142 such blocks
is still 1 for each spacing of the longest time, 288 spacings.

The main statement is `verdict_of_healthy`.
-/
import DifficultyRules.Proofs.CompleteHistory
import DifficultyRules.Proofs.WindowWork
import DifficultyRules.Proofs.WithinLimit

namespace DifficultyRules

/-! ## Healthy stores -/

namespace Store

/-- The store has what it should have of the block `b`, and of its link to its parent. -/
structure HealthyAt (s : Store) (limit : Target) (b : Block) : Prop where
  lookup : ∀ e, s.parent b ≠ .error e
  withinLimit : b.bits.WithinLimit limit
  work : ∀ t q, b.bits.toTarget = .ok t → s.parent b = .ok (some q) → b.work = q.work + t.work

/-- It has this of all blocks of the walk from `b`. -/
def Healthy (s : Store) (limit : Target) (b : Block) : Prop :=
  ∀ n c, s.back n b = .ok (some c) → s.HealthyAt limit c

variable {s : Store} {limit : Target} {b : Block}

theorem Healthy.head (h : s.Healthy limit b) : s.HealthyAt limit b :=
  h 0 b (back_zero s b)

/-- The walk can end, but it cannot fail. -/
theorem Healthy.back_ne_error (h : s.Healthy limit b) (n : Nat) (e : QueryError) :
    s.back n b ≠ .error e := by
  induction n with
  | zero => exact fun herror => nomatch herror
  | succ n ih =>
      by_cases hfound : ∃ c, s.back n b = .ok (some c)
      · obtain ⟨c, hc⟩ := hfound
        rw [back_add_of_some hc, back_one]
        exact (h n c hc).lookup e
      · rw [back_add_of_not_found fun c hc => hfound ⟨c, hc⟩]
        exact ih

/-- With the limit below `2 ^ 254`, every block adds work 4 or more. -/
theorem Healthy.addsWork (h : s.Healthy limit b) (hlimit : limit.value < 1 <<< 254)
    (count : Nat) : s.AddsWork 4 (1 <<< 256) count b := by
  intro i c q _ hc hq
  obtain ⟨t, ht, hle⟩ := (h i c hc).withinLimit
  have hle : t.value ≤ limit.value := hle
  refine ⟨t, ht, (h i c hc).work t q ht hq, ?_, Nat.div_le_self ..⟩
  rw [Target.work, Nat.le_div_iff_mul_le (Nat.succ_pos _)]
  omega

end Store

/-! ## The verdict -/

variable {p : Params} {s : Store} {parent : Block} {header : Header} {rule : Rule}
  {e : CheckError}

/-- Nothing but missing history keeps a rule from its demand. -/
theorem Rule.Hindered.shortHistory_of_healthy (h : rule.Hindered p s parent e)
    (hs : s.Healthy p.limit parent) (hlimit : p.limit.value < 1 <<< 254)
    (hparent : parent.height < .top) :
    ∃ depth, e = .shortHistory rule parent.height.next depth := by
  cases h with
  | query hback => exact absurd hback (hs.back_ne_error _ _)
  | @shortHistory _ depth => exact ⟨depth, rfl⟩
  | storedBits hbits =>
      obtain ⟨t, ht, -⟩ := hs.head.withinLimit
      rw [Compact.decodes, ht] at hbits
      cases hbits
  | window hends hwindow =>
      rw [hends.windowTarget_eq hparent (hs.addsWork hlimit _) (by decide)] at hwindow
      cases hwindow

/-- **A check on a healthy store ends without a general error.**  The block is accepted, or it
violates the rule that is selected for it, or this rule needs more history than there is. -/
theorem verdict_of_healthy (hlimit : p.limit.value < 1 <<< 254) (hparent : parent.height < .top)
    (hs : s.Healthy p.limit parent) :
    (checkSelected p s parent header).result = .ok () ∨
    (∃ cause, (checkSelected p s parent header).result =
      .error (.violation (p.ruleAt parent.height parent.bits header.time) parent.height.next
        cause)) ∨
    ∃ depth, (checkSelected p s parent header).result =
      .error (.shortHistory (p.ruleAt parent.height parent.bits header.time) parent.height.next
        depth) := by
  cases hverdict : (checkSelected p s parent header).result with
  | ok _ => exact .inl rfl
  | error e =>
      rcases violation_or_hindered hverdict with ⟨cause, rfl⟩ | hhindered
      · exact .inr (.inl ⟨cause, rfl⟩)
      · obtain ⟨depth, rfl⟩ := hhindered.shortHistory_of_healthy hs hlimit hparent
        exact .inr (.inr ⟨depth, rfl⟩)

/-! ## Chains in memory -/

/-- An intact chain within the limit is a healthy store. -/
theorem MemoryChain.Intact.healthy {c : MemoryChain} {limit : Target} (h : c.Intact)
    (hbits : ∀ e ∈ c.entries, e.block.bits.WithinLimit limit) :
    c.store.Healthy limit c.tip.block := by
  intro n b hb
  refine ⟨?lookup, ?withinLimit, ?work⟩
  case lookup =>
    intro e
    rw [← Store.back_one, ← Store.back_add_of_some hb]
    exact h.complete.back_ne_error h.height_lt e
  case withinLimit =>
    obtain ⟨e, he, rfl⟩ := h.getElem?_of_back hb
    exact hbits e (List.mem_of_getElem? he)
  case work =>
    intro t q ht hq
    obtain ⟨e, f, -, rfl, rfl, hfollows⟩ := h.follows_of_parent hb hq
    rw [hfollows.work, Compact.work_of_toTarget ht]

/-- On blocks of changing difficulty with erratic times, the sliding window decides. -/
theorem verdict_of_healthy_erratic :
    ∃ c, MemoryChain.grown erraticBlocks = some c ∧ c.entries.length = 147 ∧ ∀ header,
      (checkSelected earlyWindow c.store c.tip.block header).result = .ok () ∨
      (∃ cause, (checkSelected earlyWindow c.store c.tip.block header).result =
        .error (.violation .slidingWindow c.tip.block.height.next cause)) ∨
      ∃ depth, (checkSelected earlyWindow c.store c.tip.block header).result =
        .error (.shortHistory .slidingWindow c.tip.block.height.next depth) := by
  have hgrown : (MemoryChain.grown erraticBlocks).map (fun c => decide (
      c.entries.length = 147 ∧
      ∀ e ∈ c.entries, e.block.bits.WithinLimit earlyWindow.limit)) = some true := by
    decide +kernel
  obtain ⟨c, hc, hintact, hfacts⟩ := MemoryChain.Intact.of_grown_map hgrown
  obtain ⟨hlength, hbits⟩ := of_decide_eq_true hfacts
  refine ⟨c, hc, hlength, fun header => ?_⟩
  have hverdict := @verdict_of_healthy earlyWindow c.store c.tip.block header (by decide)
    hintact.height_lt (hintact.healthy hbits)
  rwa [ruleAt_earlyWindow] at hverdict

end DifficultyRules
