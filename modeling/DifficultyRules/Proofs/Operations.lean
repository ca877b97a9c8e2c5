/-
# `DifficultyRules.Proofs.Operations` — a chain in memory under any operations

A chain in memory is used as a fixture, and whatever is done to it, in whatever order,
its blocks should form a chain: consecutive heights, each block on the one before it,
its work added to theirs, and no name given out twice.

There are six operations, and some of them halt on the way and leave a part of their
work behind.  All of them come down to three kinds of steps (`Step`).

    append       a new tip, under the next name
    candidate    the next name is used up, and nothing is stored
    mark         lookups change, and no block does

So an operation leads from one chain to another by steps, whether it halts or not
(`Operation.steps`), and what a step keeps is kept by every run.  Two things are
shown to be kept: that the chain is linked and begins as it began (`Grown`), and that a
name which was used up and not stored stays that way (`Retired`).

The main statement is `consistent_of_operations`.
-/
import Mathlib.Data.List.Chain
import Mathlib.Data.List.Nodup
import Mathlib.Logic.Relation
import DifficultyRules.Proofs.LinkedChain

namespace DifficultyRules
namespace MemoryChain

variable {c d : MemoryChain} {base height : Height} {time : Timestamp} {bits : Compact}
  {header : Header}

/-! ## Operations -/

/-- What can be done to a chain.  A block is built from a draft, and a draft that is left unbuilt
does nothing. -/
inductive Operation where
  | append (time : Timestamp) (bits : Compact)
  | extend (count spacing : Nat) (bits : Compact)
  | build (draft : Draft)
  | candidate (time : Timestamp) (bits : Compact)
  | forgetBelow (height : Height)
  | failAt (height : Height)
deriving DecidableEq, Repr

/-- What an operation leaves behind, and why it halted, if it did. -/
def Operation.run (c : MemoryChain) : Operation → MemoryChain × Option Halt
  | append time bits => c.applyAll [fun c => c.append time bits]
  | extend count spacing bits => c.extend count spacing bits
  | build draft => c.applyAll [MemoryChain.build draft]
  | candidate time bits => c.applyAll [fun c => (c.candidate time bits).map (·.2)]
  | forgetBelow height => c.applyAll [MemoryChain.forgetBelow height]
  | failAt height => c.applyAll [MemoryChain.failAt height]

/-- The chain after these operations, of which any may have halted. -/
def operate (c : MemoryChain) (ops : List Operation) : MemoryChain :=
  ops.foldl (fun c op => (op.run c).1) c

/-! ## Steps -/

/-- One change of a chain. -/
inductive Step : MemoryChain → MemoryChain → Prop
  | append {c d : MemoryChain} {time : Timestamp} {bits : Compact} :
      c.append time bits = .ok d → Step c d
  | candidate {c d : MemoryChain} {time : Timestamp} {bits : Compact} {header : Header} :
      c.candidate time bits = .ok (header, d) → Step c d
  | mark {c : MemoryChain} (f : Entry → Entry) : (∀ e, (f e).block = e.block) →
      Step c (c.mapEntries f)

theorem step_of_build {draft : Draft} (h : c.build draft = .ok d) : Step c d := by
  rw [build] at h
  split at h
  · cases h
  · exact .append h

theorem step_of_candidate (h : (c.candidate time bits).map (·.2) = .ok d) : Step c d := by
  cases hcandidate : c.candidate time bits with
  | error halt =>
      rw [hcandidate] at h
      cases h
  | ok drawn =>
      rw [hcandidate] at h
      cases h
      exact .candidate hcandidate

theorem step_of_forgetBelow (h : c.forgetBelow height = .ok d) : Step c d := by
  rw [forgetBelow] at h
  split at h
  · cases h
  · cases h
    refine .mark _ fun e => ?_
    split
    · rfl
    · rfl

theorem step_of_failAt (h : c.failAt height = .ok d) : Step c d := by
  rw [failAt] at h
  split at h
  · cases h
  · cases h
    refine .mark _ fun e => ?_
    split
    · rfl
    · rfl

/-- Operations that are steps are a run of steps, up to the first that halts. -/
theorem steps_applyAll {ops : List (MemoryChain → Except Halt MemoryChain)}
    (hops : ∀ op ∈ ops, ∀ c d, op c = .ok d → Step c d) (c : MemoryChain) :
    Relation.ReflTransGen Step c (c.applyAll ops).1 := by
  refine applyAll_keeps (P := Relation.ReflTransGen Step c) ?_ .refl
  intro op hop c' d' hc' hd'
  exact hc'.tail (hops op hop c' d' hd')

theorem steps_applyAll_one {op : MemoryChain → Except Halt MemoryChain}
    (hop : ∀ c d, op c = .ok d → Step c d) (c : MemoryChain) :
    Relation.ReflTransGen Step c (c.applyAll [op]).1 :=
  steps_applyAll (List.forall_mem_singleton.2 hop) c

/-- **An operation is a run of steps**, whether it halts or not. -/
theorem Operation.steps (op : Operation) (c : MemoryChain) :
    Relation.ReflTransGen Step c (op.run c).1 := by
  cases op with
  | append time bits => exact steps_applyAll_one (fun _ _ => .append) c
  | extend count spacing bits =>
      rw [run, MemoryChain.extend, applyTimes_eq_applyAll]
      refine steps_applyAll (fun op hop c d hd => ?_) c
      rw [List.eq_of_mem_replicate hop] at hd
      exact step_of_build hd
  | build draft => exact steps_applyAll_one (fun _ _ => step_of_build) c
  | candidate time bits => exact steps_applyAll_one (fun _ _ => step_of_candidate) c
  | forgetBelow height => exact steps_applyAll_one (fun _ _ => step_of_forgetBelow) c
  | failAt height => exact steps_applyAll_one (fun _ _ => step_of_failAt) c

theorem steps_operate (ops : List Operation) (c : MemoryChain) :
    Relation.ReflTransGen Step c (c.operate ops) := by
  induction ops generalizing c with
  | nil => exact .refl
  | cons op ops ih => exact (op.steps c).trans (ih _)

/-- What a step keeps, any operations keep. -/
theorem operate_keeps {P : MemoryChain → Prop} (hstep : ∀ c d, P c → Step c d → P d)
    (hc : P c) (ops : List Operation) : P (c.operate ops) := by
  have hsteps := steps_operate ops c
  generalize c.operate ops = d at hsteps ⊢
  induction hsteps with
  | refl => exact hc
  | tail _ hlast ih => exact hstep _ _ ih hlast

/-! ## Growth -/

theorem Entry.Follows.of_blocks {newer older newer' older' : Entry} (h : newer.Follows older)
    (hnewer : newer'.block = newer.block) (holder : older'.block = older.block) :
    newer'.Follows older' := by
  obtain ⟨hparent, hheight, hwork, hname⟩ := h
  refine ⟨?_, ?_, ?_, ?_⟩
  · rw [hnewer, holder, hparent]
  · rw [hnewer, holder, hheight]
  · rw [hnewer, holder, hwork]
  · rw [hnewer, holder]
    exact hname

/-- Marks do not unlink a chain. -/
theorem Linked.mapEntries (h : c.Linked) {f : Entry → Entry}
    (hf : ∀ e, (f e).block = e.block) : (c.mapEntries f).Linked := by
  refine ⟨?_, ?_, ?_⟩
  · rw [entries_mapEntries]
    exact List.isChain_map_of_isChain f (fun _ _ hab => hab.of_blocks (hf _) (hf _)) h.follows
  · show (f c.tip).block.id.value < c.nextId
    rw [hf]
    exact h.named
  · rw [entries_mapEntries, List.length_map]
    exact h.length_lt

/-- The block with which a chain begins at the height `base`. -/
structure Opening (base : Height) (b : Block) : Prop where
  parent : b.parent = .zero
  height : b.height = base
  work : b.work = b.bits.work * (base.toNat + 1)
  name : 0 < b.id.value

/-- What holds of a chain at every stage. -/
structure Grown (base : Height) (c : MemoryChain) : Prop where
  linked : c.Linked
  opening : ∃ e, c.entries.getLast? = some e ∧ Opening base e.block

namespace Grown

theorem start (h : startAt base time bits = .ok c) : c.Grown base := by
  obtain ⟨-, hentries, -, htip⟩ := startAt_eq_ok h
  refine ⟨.startAt h, c.tip, by rw [hentries, List.getLast?_singleton], ?_⟩
  rw [htip]
  exact ⟨rfl, rfl, rfl, Nat.one_pos⟩

theorem step (h : c.Grown base) (hd : Step c d) : d.Grown base := by
  obtain ⟨hlinked, e, hlast, hopening⟩ := h
  cases hd with
  | append happend =>
      refine ⟨hlinked.append happend, e, ?_, hopening⟩
      rw [(append_eq_ok happend).1, List.getLast?_cons, hlast]
      rfl
  | candidate hcandidate =>
      refine ⟨hlinked.candidate hcandidate, e, ?_, hopening⟩
      rw [(candidate_eq_ok hcandidate).1, hlast]
  | mark f hf =>
      refine ⟨hlinked.mapEntries hf, f e, ?_, ?_⟩
      · rw [entries_mapEntries, List.getLast?_map, hlast]
        rfl
      · rw [hf]
        exact hopening

theorem operate (h : c.Grown base) (ops : List Operation) : (c.operate ops).Grown base :=
  operate_keeps (fun _ _ hc hstep => hc.step hstep) h ops

end Grown

/-! ## The blocks in order -/

/-- All blocks, the oldest first. -/
def blocks (c : MemoryChain) : List Block := c.entries.reverse.map (·.block)

theorem mem_blocks {b : Block} : b ∈ c.blocks ↔ ∃ e ∈ c.entries, e.block = b := by
  rw [blocks, List.mem_map]
  simp only [List.mem_reverse]

/-- The blocks of a chain which began at the height `base` are a chain. -/
structure Consistent (base : Height) (c : MemoryChain) : Prop where
  first : ∃ b, c.blocks[0]? = some b ∧ b.parent = .zero ∧
    b.work = b.bits.work * (base.toNat + 1)
  next : ∀ i b b', c.blocks[i]? = some b → c.blocks[i + 1]? = some b' →
    b'.parent = b.id ∧ b'.work = b.work + b'.bits.work
  /-- Heights are consecutive, until there are no more of them. -/
  height : c.tip.block.height < .top →
    ∀ i b, c.blocks[i]? = some b → b.height.toNat = base.toNat + i
  nodup : (c.blocks.map (·.id)).Nodup
  ne_zero : ∀ b ∈ c.blocks, b.id ≠ .zero
  /-- The name that the first block calls its parent belongs to no block. -/
  zero_not_found : c.find? .zero = none

namespace Grown

variable {i : Nat} {b b' : Block}

theorem blocks_zero (h : c.Grown base) : ∃ b, c.blocks[0]? = some b ∧ Opening base b := by
  obtain ⟨-, e, hlast, hopening⟩ := h
  refine ⟨e.block, ?_, hopening⟩
  rw [blocks, List.getElem?_map, ← List.head?_eq_getElem?, List.head?_reverse, hlast]
  rfl

/-- Each block but the first was appended on the one before it. -/
theorem follows (h : c.Grown base) (hb : c.blocks[i]? = some b)
    (hb' : c.blocks[i + 1]? = some b') :
    ∃ older newer : Entry, newer.Follows older ∧ older.block = b ∧ newer.block = b' := by
  rw [blocks, List.getElem?_map, Option.map_eq_some_iff] at hb hb'
  obtain ⟨older, holder, rfl⟩ := hb
  obtain ⟨newer, hnewer, rfl⟩ := hb'
  obtain ⟨_, rfl⟩ := List.getElem?_eq_some_iff.1 holder
  obtain ⟨hlength, rfl⟩ := List.getElem?_eq_some_iff.1 hnewer
  have hchain : c.entries.reverse.IsChain fun older newer => newer.Follows older :=
    List.isChain_reverse.2 h.linked.follows
  exact ⟨_, _, hchain.getElem i hlength, rfl, rfl⟩

/-- Heights count up from the first one and stop at the largest. -/
theorem height_eq (h : c.Grown base) (hb : c.blocks[i]? = some b) :
    b.height.toNat = min (base.toNat + i) (1 <<< 64 - 1) := by
  induction i generalizing b with
  | zero =>
      obtain ⟨first, hfirst, hopening⟩ := h.blocks_zero
      rw [hb] at hfirst
      cases hfirst
      have := base.lt
      rw [hopening.height]
      omega
  | succ i ih =>
      obtain ⟨hlength, -⟩ := List.getElem?_eq_some_iff.1 hb
      have hbefore := List.getElem?_eq_getElem (Nat.lt_of_succ_lt hlength)
      obtain ⟨older, newer, hfollows, holder, rfl⟩ := h.follows hbefore hb
      have holder := ih (hbefore.trans (congrArg some holder.symm))
      rw [hfollows.height, Height.toNat_next, holder]
      omega

theorem blocks_tip (c : MemoryChain) : c.blocks[c.older.length]? = some c.tip.block := by
  have hlast : c.entries.reverse[c.older.length]? = some c.tip := by
    rw [entries, List.reverse_cons, List.getElem?_append_right (by simp)]
    simp
  rw [blocks, List.getElem?_map, hlast]
  rfl

theorem length_blocks (c : MemoryChain) : c.blocks.length = c.older.length + 1 := by
  rw [blocks, List.length_map, List.length_reverse, entries, List.length_cons]

theorem height_of_lt (h : c.Grown base) (htip : c.tip.block.height < .top)
    (hb : c.blocks[i]? = some b) : b.height.toNat = base.toNat + i := by
  have htip : c.tip.block.height.toNat < 1 <<< 64 - 1 := htip
  have hlast := h.height_eq (blocks_tip c)
  obtain ⟨hi, -⟩ := List.getElem?_eq_some_iff.1 hb
  rw [length_blocks] at hi
  rw [h.height_eq hb]
  omega

/-- Names grow with the chain, so none is zero. -/
theorem id_pos (h : c.Grown base) (hb : c.blocks[i]? = some b) : 0 < b.id.value := by
  induction i generalizing b with
  | zero =>
      obtain ⟨first, hfirst, hopening⟩ := h.blocks_zero
      rw [hb] at hfirst
      cases hfirst
      exact hopening.name
  | succ i _ =>
      obtain ⟨hlength, -⟩ := List.getElem?_eq_some_iff.1 hb
      have hbefore := List.getElem?_eq_getElem (Nat.lt_of_succ_lt hlength)
      obtain ⟨older, newer, hfollows, -, rfl⟩ := h.follows hbefore hb
      exact Nat.lt_of_le_of_lt (Nat.zero_le _) hfollows.name

theorem id_ne_zero (h : c.Grown base) (hb : b ∈ c.blocks) : b.id ≠ .zero := by
  obtain ⟨i, hi⟩ := List.getElem?_of_mem hb
  intro hzero
  have hpos := h.id_pos hi
  rw [hzero] at hpos
  exact Nat.lt_irrefl _ hpos

theorem nodup_id (h : c.Grown base) : (c.blocks.map (·.id)).Nodup := by
  rw [blocks, List.map_map, List.map_reverse, List.nodup_reverse]
  refine List.pairwise_map.2 ?_
  exact h.linked.pairwise_name.imp fun hlt hid => Nat.ne_of_gt hlt (congrArg Hash.value hid)

theorem consistent (h : c.Grown base) : c.Consistent base where
  first := by
    obtain ⟨b, hb, hopening⟩ := h.blocks_zero
    exact ⟨b, hb, hopening.parent, hopening.work⟩
  next i b b' hb hb' := by
    obtain ⟨older, newer, hfollows, rfl, rfl⟩ := h.follows hb hb'
    exact ⟨hfollows.parent, hfollows.work⟩
  height htip i b hb := h.height_of_lt htip hb
  nodup := h.nodup_id
  ne_zero b hb := h.id_ne_zero hb
  zero_not_found := by
    refine List.find?_eq_none.2 fun e he => ?_
    simpa using h.id_ne_zero (mem_blocks.2 ⟨e, he, rfl⟩)

end Grown

/-! ## Names that are used up -/

/-- The name is given out, and no block has it. -/
structure Retired (name : Nat) (c : MemoryChain) : Prop where
  passed : name < c.nextId
  absent : ∀ e ∈ c.entries, e.block.id.value ≠ name

namespace Retired

variable {name : Nat}

theorem step (h : c.Retired name) (hd : Step c d) : d.Retired name := by
  cases hd with
  | append happend =>
      obtain ⟨hentries, hnext, htip⟩ := append_eq_ok happend
      refine ⟨by rw [hnext]; exact Nat.lt_succ_of_lt h.passed, fun e he => ?_⟩
      rw [hentries, List.mem_cons] at he
      rcases he with rfl | he
      · rw [htip]
        exact Nat.ne_of_gt h.passed
      · exact h.absent e he
  | candidate hcandidate =>
      obtain ⟨hentries, -, hnext⟩ := candidate_eq_ok hcandidate
      refine ⟨by rw [hnext]; exact Nat.lt_succ_of_lt h.passed, ?_⟩
      rw [hentries]
      exact h.absent
  | mark f hf =>
      refine ⟨h.passed, fun e he => ?_⟩
      rw [entries_mapEntries] at he
      obtain ⟨e', he', rfl⟩ := List.mem_map.1 he
      rw [hf]
      exact h.absent e' he'

theorem operate (h : c.Retired name) (ops : List Operation) : (c.operate ops).Retired name :=
  operate_keeps (fun _ _ hc hstep => hc.step hstep) h ops

/-- Drawing up a candidate retires its name. -/
theorem of_candidate (hc : c.Linked) (h : c.candidate time bits = .ok (header, d)) :
    d.Retired header.id.value := by
  obtain ⟨hentries, -, hnext⟩ := candidate_eq_ok h
  have hname : header.id = c.nextHash := by
    rw [candidate] at h
    split at h
    · cases h
      rfl
    · cases h
  rw [hname]
  refine ⟨by rw [hnext]; exact Nat.lt_succ_self _, fun e he => ?_⟩
  rw [hentries, entries, List.mem_cons] at he
  -- all names of the chain are at most that of the tip, and the candidate's is larger
  rcases he with rfl | he
  · exact Nat.ne_of_lt hc.named
  · have hnames := (List.pairwise_cons.1 hc.pairwise_name).1 e he
    exact Nat.ne_of_lt (Nat.lt_trans hnames hc.named)

end Retired

/-! ## Any operations -/

/-- **Whatever is done to a chain, its blocks form one**, also where an operation halted on the way.
A name that was given out to a candidate is not the name of a block, then or later. -/
theorem consistent_of_operations {first : MemoryChain}
    (hfirst : startAt base time bits = .ok first) (ops : List Operation) :
    (first.operate ops).Consistent base ∧
      ∀ time bits header d, (first.operate ops).candidate time bits = .ok (header, d) →
        ∀ later : List Operation, ∀ b ∈ (d.operate later).blocks, b.id ≠ header.id := by
  have hgrown := (Grown.start hfirst).operate ops
  refine ⟨hgrown.consistent, ?_⟩
  intro time bits header d hcandidate later b hb hid
  obtain ⟨e, he, rfl⟩ := mem_blocks.1 hb
  have hretired := (Retired.of_candidate hgrown.linked hcandidate).operate later
  exact hretired.absent e he (congrArg Hash.value hid)

/-- Operations of which two halt, one of them after its first block. -/
def interrupted : List Operation :=
  [.extend 3 600 Network.mainnet.limitBits,
    .candidate ⟨5000, by decide⟩ Network.testnet.limitBits,
    .extend 4 (1 <<< 31) Network.mainnet.limitBits,
    .forgetBelow ⟨502, by decide⟩,
    .failAt ⟨900, by decide⟩,
    .append ⟨7, by decide⟩ ⟨0x1d80ffff, by decide⟩]

theorem consistent_of_operations_interrupted :
    ∃ first, startAt ⟨500, by decide⟩ ⟨1000, by decide⟩ Network.mainnet.limitBits = .ok first ∧
      (first.operate interrupted).blocks.map (fun b => (b.id.value, b.height.toNat)) =
        [(1, 500), (2, 501), (3, 502), (4, 503), (6, 504), (7, 505)] ∧
      (first.operate interrupted).Consistent ⟨500, by decide⟩ ∧
      ∃ drawn, drawn.1.id.value = 8 ∧
        (first.operate interrupted).candidate ⟨8000, by decide⟩ Network.mainnet.limitBits =
          .ok drawn ∧
        ∀ later : List Operation, ∀ b ∈ (drawn.2.operate later).blocks, b.id ≠ drawn.1.id := by
  obtain ⟨first, hfirst⟩ : ∃ first, startAt ⟨500, by decide⟩ ⟨1000, by decide⟩
      Network.mainnet.limitBits = .ok first := ⟨_, rfl⟩
  obtain ⟨hconsistent, hnames⟩ := consistent_of_operations hfirst interrupted
  have hblocks : (first.operate interrupted).blocks.map (fun b => (b.id.value, b.height.toNat)) =
      [(1, 500), (2, 501), (3, 502), (4, 503), (6, 504), (7, 505)] := by
    cases hfirst
    decide +kernel
  have hname : ((first.operate interrupted).candidate ⟨8000, by decide⟩
      Network.mainnet.limitBits).toOption.map (·.1.id.value) = some 8 := by
    cases hfirst
    decide +kernel
  refine ⟨first, hfirst, hblocks, hconsistent, ?_⟩
  cases hdrawn : (first.operate interrupted).candidate ⟨8000, by decide⟩
      Network.mainnet.limitBits with
  | error halt =>
      rw [hdrawn] at hname
      cases hname
  | ok drawn =>
      rw [hdrawn] at hname
      exact ⟨drawn, Option.some.inj hname, rfl, hnames _ _ _ _ hdrawn⟩

end MemoryChain
end DifficultyRules
