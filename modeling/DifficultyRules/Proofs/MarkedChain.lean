/-
# `DifficultyRules.Proofs.MarkedChain` — walks on a chain with marked blocks

Blocks of a chain in memory can be marked as forgotten or as failing, and a walk finds
the marks one after the other, from the newest down.  What it brings depends on the
first height that is not free (`Descent`).

    every height on the way is free           the block at the last one
    first a failing block                     an error that names it
    first a block that is only forgotten      nothing
    first a height below that of the opening  nothing

The block that the walk starts from is not looked up, so its own marks do not count.

Two things are needed for this.  Heights have to be places in the list of blocks, which
they are as long as the tip is below the largest height (`Grown.entryAt?_eq_some_iff`).
And a lookup of a name has to be a lookup at a height, which is what a linked chain
provides: the block one height below is the parent, and its marks decide what is said of
it (`Grown.parent_of_entryBelow?`).

Where the marks come from is a matter of the operations before.  A block is forgotten
because of a call that was made while it was stored, and was given a greater height; it
fails because a call named its height.  Blocks that are appended later carry no mark
(`Prolongs`), so a call never reaches them (`mark_iff_of_operations`).

To forget the blocks below a height is to go through the places from the first one up,
and to mark the name that is found in each.  That comes to the same as marking all lower
heights at once, and no place on the way is empty (`Grown.forgetBelow_eq_foldlM`).

The main statement is `walk_of_operations`.
-/
import Mathlib.Control.Monad.Basic
import DifficultyRules.Proofs.Operations

namespace DifficultyRules
namespace MemoryChain

variable {c d : MemoryChain} {base height k : Height} {time : Timestamp} {bits : Compact}
  {b : Block} {e f : Entry} {i n distance : Nat}

/-! ## Heights are places -/

/-- The block so many heights below, with its marks. -/
def entryBelow? (c : MemoryChain) (height : Height) (distance : Nat) : Option Entry :=
  (height.below? distance).bind c.entryAt?

theorem blockAt_eq_ok_iff :
    c.blockAt height = .ok b ↔ ∃ e, c.entryAt? height = some e ∧ e.block = b := by
  rw [blockAt]
  cases c.entryAt? height with
  | none => simp
  | some e => simp

namespace Grown

theorem height_of_getElem? (h : c.Grown base) (htip : c.tip.block.height < .top)
    (he : c.entries.reverse[i]? = some e) : e.block.height.toNat = base.toNat + i := by
  refine h.height_of_lt htip ?_
  rw [blocks, List.getElem?_map, he]
  rfl

/-- Heights go from that of the opening up to that of the tip. -/
theorem height_of_mem (h : c.Grown base) (htip : c.tip.block.height < .top)
    (he : e ∈ c.entries) : base.toNat ≤ e.block.height.toNat ∧
      e.block.height.toNat < base.toNat + c.entries.length := by
  obtain ⟨i, hi⟩ := List.getElem?_of_mem (List.mem_reverse.2 he)
  obtain ⟨hlength, -⟩ := List.getElem?_eq_some_iff.1 hi
  rw [List.length_reverse] at hlength
  have hheight := h.height_of_getElem? htip hi
  omega

/-- Counted from the opening, a height is a place in the list. -/
theorem entryAt?_eq_some_iff (h : c.Grown base) (htip : c.tip.block.height < .top) :
    c.entryAt? height = some e ↔
      ∃ i, c.entries.reverse[i]? = some e ∧ height.toNat = base.toNat + i := by
  constructor
  · intro he
    obtain ⟨i, hi⟩ := List.getElem?_of_mem (List.mem_of_find?_eq_some he)
    have hheight : e.block.height = height := by simpa using List.find?_some he
    exact ⟨i, hi, by rw [← hheight, h.height_of_getElem? htip hi]⟩
  · rintro ⟨i, hi, hheight⟩
    obtain ⟨hlength, rfl⟩ := List.getElem?_eq_some_iff.1 hi
    refine List.find?_eq_some_iff_getElem.2 ⟨?_, i, hlength, rfl, fun j hj => ?_⟩
    · rw [decide_eq_true_eq, Height.ext_iff, h.height_of_getElem? htip hi, hheight]
    · have hj' := h.height_of_getElem? htip (List.getElem?_eq_getElem (Nat.lt_trans hj hlength))
      rw [Bool.not_eq_true', decide_eq_false_iff_not, Height.ext_iff]
      omega

theorem entryBelow?_eq_some_iff (h : c.Grown base) (htip : c.tip.block.height < .top) :
    c.entryBelow? height n = some e ↔
      ∃ i, c.entries.reverse[i]? = some e ∧ height.toNat = base.toNat + i + n := by
  rw [entryBelow?, Height.below?]
  split
  · rw [Option.bind_some, h.entryAt?_eq_some_iff htip]
    refine exists_congr fun i => and_congr_right fun _ => ?_
    show height.toNat - n = base.toNat + i ↔ _
    omega
  · refine iff_of_false (by simp) ?_
    rintro ⟨i, -, hheight⟩
    omega

/-- Below a stored height, blocks are found down to the opening and no further. -/
theorem entryBelow?_eq_none_iff (h : c.Grown base) (htip : c.tip.block.height < .top)
    (he : c.entryAt? height = some e) :
    c.entryBelow? height n = none ↔ height.toNat < base.toNat + n := by
  obtain ⟨i, hi, hheight⟩ := (h.entryAt?_eq_some_iff htip).1 he
  obtain ⟨hlength, -⟩ := List.getElem?_eq_some_iff.1 hi
  constructor
  · intro hnone
    refine Nat.lt_of_not_le fun hle => ?_
    have hlower : c.entries.reverse[i - n]? = some c.entries.reverse[i - n] :=
      List.getElem?_eq_getElem (by omega)
    rw [(h.entryBelow?_eq_some_iff htip).2 ⟨i - n, hlower, by omega⟩] at hnone
    cases hnone
  · intro hlt
    refine Option.eq_none_iff_forall_ne_some.2 fun f hf => ?_
    obtain ⟨j, -, hj⟩ := (h.entryBelow?_eq_some_iff htip).1 hf
    omega

/-- Blocks are stored from the opening to the tip, each at its own height. -/
theorem exists_blockAt_iff (h : c.Grown base) (htip : c.tip.block.height < .top) :
    (∃ b, c.blockAt height = .ok b) ↔ base ≤ height ∧ height ≤ c.tip.block.height := by
  have hlast := h.height_of_lt htip (blocks_tip c)
  simp only [blockAt_eq_ok_iff, h.entryAt?_eq_some_iff htip, Height.le_def]
  constructor
  · rintro ⟨_, e, ⟨i, hi, hheight⟩, -⟩
    obtain ⟨hlength, -⟩ := List.getElem?_eq_some_iff.1 hi
    rw [List.length_reverse, entries, List.length_cons] at hlength
    omega
  · rintro ⟨hbase, hle⟩
    have hlength : height.toNat - base.toNat < c.entries.reverse.length := by
      rw [List.length_reverse, entries, List.length_cons]
      omega
    exact ⟨_, _, ⟨_, List.getElem?_eq_getElem hlength, by omega⟩, rfl⟩

/-! ## One step down -/

/-- The parent is one height below, as far as its marks allow. -/
theorem parent_of_entryBelow? (h : c.Grown base) (htip : c.tip.block.height < .top)
    (he : c.entryBelow? height n = some e) (hf : c.entryBelow? height (n + 1) = some f) :
    c.store.parent e.block =
      if f.failing then .error (.storage (.readFailed ("block " ++ f.block.id.text)))
      else if f.forgotten then .ok none
      else .ok (some f.block) := by
  obtain ⟨i, hi, hheight⟩ := (h.entryBelow?_eq_some_iff htip).1 he
  obtain ⟨j, hj, hheight'⟩ := (h.entryBelow?_eq_some_iff htip).1 hf
  obtain rfl : i = j + 1 := by omega
  have hmem : f ∈ c.entries := List.mem_reverse.1 (List.mem_of_getElem? hj)
  obtain ⟨hlength, rfl⟩ := List.getElem?_eq_some_iff.1 hi
  obtain ⟨_, rfl⟩ := List.getElem?_eq_some_iff.1 hj
  have hchain : c.entries.reverse.IsChain fun older newer => newer.Follows older :=
    List.isChain_reverse.2 h.linked.follows
  exact h.linked.parent_of_follows (hchain.getElem j hlength) hmem

/-- The opening has no parent in the store. -/
theorem parent_of_opening (h : c.Grown base) (htip : c.tip.block.height < .top)
    (he : c.entryBelow? height n = some e) (hlow : height.toNat < base.toNat + (n + 1)) :
    c.store.parent e.block = .ok none := by
  obtain ⟨i, hi, hheight⟩ := (h.entryBelow?_eq_some_iff htip).1 he
  obtain rfl : i = 0 := by omega
  obtain ⟨first, hfirst, hopening⟩ := h.blocks_zero
  rw [blocks, List.getElem?_map, hi] at hfirst
  cases hfirst
  rw [Store.parent, hopening.parent, store]
  simp only [h.consistent.zero_not_found]
  split
  · rfl
  · rfl

end Grown

/-! ## The way down -/

/-- The next `n` heights below are those of unmarked blocks. -/
def ClearBelow (c : MemoryChain) (height : Height) (n : Nat) : Prop :=
  ∀ i < n, ∃ e, c.entryBelow? height (i + 1) = some e ∧ e.failing = false ∧ e.forgotten = false

/-- What comes of a walk from the block at `height`, on a chain whose first block is at `base`. -/
inductive Descent (c : MemoryChain) (base height : Height) (distance : Nat) :
    Except QueryError (Option Block) → Prop
  | arrives {e : Entry} : c.ClearBelow height distance → c.entryBelow? height distance = some e →
      Descent c base height distance (.ok (some e.block))
  | fails {n : Nat} {e : Entry} : n < distance → c.ClearBelow height n →
      c.entryBelow? height (n + 1) = some e → e.failing = true →
      Descent c base height distance
        (.error (.storage (.readFailed ("block " ++ e.block.id.text))))
  | forgotten {n : Nat} {e : Entry} : n < distance → c.ClearBelow height n →
      c.entryBelow? height (n + 1) = some e → e.failing = false → e.forgotten = true →
      Descent c base height distance (.ok none)
  | ends {n : Nat} : n < distance → c.ClearBelow height n →
      height.toNat < base.toNat + (n + 1) → Descent c base height distance (.ok none)

theorem ClearBelow.succ (h : c.ClearBelow height n) (he : c.entryBelow? height (n + 1) = some e)
    (hfailing : e.failing = false) (hforgotten : e.forgotten = false) :
    c.ClearBelow height (n + 1) := by
  intro i hi
  rcases Nat.lt_or_eq_of_le (Nat.le_of_lt_succ hi) with hlt | rfl
  · exact h i hlt
  · exact ⟨e, he, hfailing, hforgotten⟩

namespace Grown

/-- The walk goes on while heights are free. -/
theorem back_of_clearBelow (h : c.Grown base) (htip : c.tip.block.height < .top)
    (he : c.entryAt? height = some e) (hclear : c.ClearBelow height n) :
    ∃ f, c.entryBelow? height n = some f ∧ c.store.back n e.block = .ok (some f.block) := by
  induction n with
  | zero =>
      obtain ⟨i, hi, hheight⟩ := (h.entryAt?_eq_some_iff htip).1 he
      exact ⟨e, (h.entryBelow?_eq_some_iff htip).2 ⟨i, hi, hheight⟩, rfl⟩
  | succ n ih =>
      obtain ⟨f, hf, hback⟩ := ih fun i hi => hclear i (Nat.lt_succ_of_lt hi)
      obtain ⟨g, hg, hfailing, hforgotten⟩ := hclear n (Nat.lt_succ_self n)
      refine ⟨g, hg, ?_⟩
      rw [Store.back_add_of_some hback, Store.back_one, h.parent_of_entryBelow? htip hf hg,
        hfailing, hforgotten]
      rfl

/-- Where the next step brings no block, the walk has its answer. -/
theorem back_of_clearBelow_lt (h : c.Grown base) (htip : c.tip.block.height < .top)
    (he : c.entryAt? height = some e) (hclear : c.ClearBelow height n) (hn : n < distance)
    {r : Except QueryError (Option Block)} (hr : ∀ a, r ≠ .ok (some a))
    (hend : ∀ f, c.entryBelow? height n = some f → c.store.parent f.block = r) :
    c.store.back distance e.block = r := by
  obtain ⟨f, hf, hback⟩ := h.back_of_clearBelow htip he hclear
  have hstep : c.store.back (n + 1) e.block = r := by
    rw [Store.back_add_of_some hback, Store.back_one, hend f hf]
  obtain ⟨j, rfl⟩ := Nat.exists_eq_add_of_le (Nat.succ_le_of_lt hn)
  rw [Store.back_add_of_not_found (by rwa [hstep]), hstep]

theorem back_of_descent (h : c.Grown base) (htip : c.tip.block.height < .top)
    (he : c.entryAt? height = some e) {r : Except QueryError (Option Block)}
    (hr : c.Descent base height distance r) : c.store.back distance e.block = r := by
  cases hr with
  | arrives hclear hf =>
      obtain ⟨g, hg, hback⟩ := h.back_of_clearBelow htip he hclear
      rw [hf] at hg
      cases hg
      exact hback
  | fails hn hclear hg hfailing =>
      refine h.back_of_clearBelow_lt htip he hclear hn (by simp) fun f hf => ?_
      rw [h.parent_of_entryBelow? htip hf hg, hfailing]
      rfl
  | forgotten hn hclear hg hfailing hforgotten =>
      refine h.back_of_clearBelow_lt htip he hclear hn (by simp) fun f hf => ?_
      rw [h.parent_of_entryBelow? htip hf hg, hfailing, hforgotten]
      rfl
  | ends hn hclear hlow =>
      exact h.back_of_clearBelow_lt htip he hclear hn (by simp)
        fun f hf => h.parent_of_opening htip hf hlow

/-- One of the four cases applies at every distance. -/
theorem exists_descent (h : c.Grown base) (htip : c.tip.block.height < .top)
    (he : c.entryAt? height = some e) (distance : Nat) : ∃ r, c.Descent base height distance r := by
  induction distance with
  | zero =>
      have hclear : c.ClearBelow height 0 := fun i hi => absurd hi (Nat.not_lt_zero i)
      obtain ⟨f, hf, -⟩ := h.back_of_clearBelow htip he hclear
      exact ⟨_, .arrives hclear hf⟩
  | succ distance ih =>
      obtain ⟨r, hr⟩ := ih
      have hlast := Nat.lt_succ_self distance
      cases hr with
      | fails hn hclear hg hfailing =>
          exact ⟨_, .fails (Nat.lt_trans hn hlast) hclear hg hfailing⟩
      | forgotten hn hclear hg hfailing hforgotten =>
          exact ⟨_, .forgotten (Nat.lt_trans hn hlast) hclear hg hfailing hforgotten⟩
      | ends hn hclear hlow => exact ⟨_, .ends (Nat.lt_trans hn hlast) hclear hlow⟩
      | arrives hclear _ =>
          -- so far the way was free, and one more height decides
          cases hnext : c.entryBelow? height (distance + 1) with
          | none =>
              have hlow := (h.entryBelow?_eq_none_iff htip he).1 hnext
              exact ⟨_, .ends hlast hclear hlow⟩
          | some f =>
              cases hfailing : f.failing with
              | true => exact ⟨_, .fails hlast hclear hnext hfailing⟩
              | false =>
                  cases hforgotten : f.forgotten with
                  | true => exact ⟨_, .forgotten hlast hclear hnext hfailing hforgotten⟩
                  | false => exact ⟨_, .arrives (hclear.succ hnext hfailing hforgotten) hnext⟩

/-- **The first height that is not free decides** what a walk brings. -/
theorem back_eq_iff_descent (h : c.Grown base) (htip : c.tip.block.height < .top)
    (hb : c.blockAt height = .ok b) {r : Except QueryError (Option Block)} :
    c.store.back distance b = r ↔ c.Descent base height distance r := by
  obtain ⟨e, he, rfl⟩ := blockAt_eq_ok_iff.1 hb
  constructor
  · rintro rfl
    obtain ⟨r, hr⟩ := h.exists_descent htip he distance
    rwa [h.back_of_descent htip he hr]
  · exact h.back_of_descent htip he

end Grown

/-! ## Marks -/

/-- The chain stores this block with this mark. -/
def Marked (mark : Entry → Bool) (c : MemoryChain) (b : Block) : Prop :=
  ∃ e ∈ c.entries, e.block = b ∧ mark e = true

variable {mark : Entry → Bool}

/-- A name belongs to one entry. -/
theorem Linked.eq_of_id (h : c.Linked) (he : e ∈ c.entries) (hf : f ∈ c.entries)
    (hid : e.block.id = f.block.id) : e = f := by
  have hfound := h.find?_of_mem he
  rw [hid, h.find?_of_mem hf] at hfound
  exact (Option.some.inj hfound).symm

theorem marked_iff_of_mem (h : c.Linked) (he : e ∈ c.entries) :
    c.Marked mark e.block ↔ mark e = true := by
  constructor
  · rintro ⟨f, hf, hblock, hmark⟩
    rwa [← h.eq_of_id hf he (by rw [hblock])]
  · intro hmark
    exact ⟨e, he, rfl, hmark⟩

theorem exists_marked_mapEntries (g : Entry → Entry) :
    (c.mapEntries g).Marked mark b ↔ ∃ e ∈ c.entries, (g e).block = b ∧ mark (g e) = true := by
  simp only [Marked, entries_mapEntries, List.mem_map, exists_exists_and_eq_and]

/-- Of the blocks with the property `q`, those that are stored take the mark, if it is given to them
at all, and the mark of all others is as it was. -/
theorem marked_mapEntries_iff (q : Block → Prop) [DecidablePred q] (set : Entry → Entry)
    (given : Bool) (hblock : ∀ e, (set e).block = e.block)
    (hmark : ∀ e, mark (set e) = (mark e || given)) :
    (c.mapEntries fun e => if q e.block then set e else e).Marked mark b ↔
      c.Marked mark b ∨ given = true ∧ b ∈ c.blocks ∧ q b := by
  rw [exists_marked_mapEntries]
  constructor
  · rintro ⟨e, he, heq, hmarked⟩
    split at heq
    · next hq =>
        rw [hblock] at heq
        rw [if_pos hq, hmark, Bool.or_eq_true] at hmarked
        subst heq
        exact hmarked.imp (fun h => ⟨e, he, rfl, h⟩) fun h => ⟨h, mem_blocks.2 ⟨e, he, rfl⟩, hq⟩
    · next hq =>
        rw [if_neg hq] at hmarked
        exact .inl ⟨e, he, heq, hmarked⟩
  · rintro (⟨e, he, rfl, hmarked⟩ | ⟨hgiven, hb, hq⟩)
    · refine ⟨e, he, ?_, ?_⟩
      · split
        · exact hblock e
        · rfl
      · split
        · rw [hmark, hmarked, Bool.true_or]
        · exact hmarked
    · obtain ⟨e, he, rfl⟩ := mem_blocks.1 hb
      refine ⟨e, he, ?_, ?_⟩
      · rw [if_pos hq, hblock]
      · rw [if_pos hq, hmark, hgiven, Bool.or_true]

/-- The chain has grown by unmarked blocks. -/
def Prolongs (c d : MemoryChain) : Prop :=
  ∃ added, d.entries = added ++ c.entries ∧ ∀ e ∈ added, e.failing = false ∧ e.forgotten = false

namespace Prolongs

theorem refl (c : MemoryChain) : c.Prolongs c := ⟨[], rfl, by simp⟩

theorem append (h : c.Prolongs d) {d' : MemoryChain} (hd : d.append time bits = .ok d') :
    c.Prolongs d' := by
  obtain ⟨added, hentries, hadded⟩ := h
  obtain ⟨hentries', -, htip⟩ := append_eq_ok hd
  refine ⟨d'.tip :: added, by rw [hentries', hentries, List.cons_append], fun e he => ?_⟩
  rcases List.mem_cons.1 he with rfl | he
  · rw [htip]
    exact ⟨rfl, rfl⟩
  · exact hadded e he

theorem build (h : c.Prolongs d) {d' : MemoryChain} {draft : Draft}
    (hd : d.build draft = .ok d') : c.Prolongs d' := by
  rw [MemoryChain.build] at hd
  split at hd
  · cases hd
  · exact h.append hd

theorem candidate (h : c.Prolongs d) {d' : MemoryChain}
    (hd : (d.candidate time bits).map (·.2) = .ok d') : c.Prolongs d' := by
  cases hcandidate : d.candidate time bits with
  | error halt =>
      rw [hcandidate] at hd
      cases hd
  | ok drawn =>
      rw [hcandidate] at hd
      cases hd
      rw [Prolongs, (candidate_eq_ok hcandidate).1]
      exact h

/-- Unmarked blocks add nothing to what is marked. -/
theorem marked_iff (h : c.Prolongs d)
    (hmark : ∀ e : Entry, e.failing = false → e.forgotten = false → mark e = false) :
    d.Marked mark b ↔ c.Marked mark b := by
  obtain ⟨added, hentries, hadded⟩ := h
  constructor
  · rintro ⟨e, he, hblock, he'⟩
    rw [hentries, List.mem_append] at he
    rcases he with he | he
    · rw [hmark e (hadded e he).1 (hadded e he).2] at he'
      cases he'
    · exact ⟨e, he, hblock, he'⟩
  · rintro ⟨e, he, hblock, he'⟩
    exact ⟨e, by rw [hentries]; exact List.mem_append_right _ he, hblock, he'⟩

end Prolongs

/-- An operation that is not meant to mark blocks leaves the marks alone. -/
theorem Operation.run_cases (c : MemoryChain) (op : Operation) :
    (∃ k, op = .forgetBelow k) ∨ (∃ k, op = .failAt k) ∨
      (∀ k, op ≠ .forgetBelow k ∧ op ≠ .failAt k) ∧ c.Prolongs (op.run c).1 := by
  cases op with
  | forgetBelow k => exact .inl ⟨k, rfl⟩
  | failAt k => exact .inr (.inl ⟨k, rfl⟩)
  | append time bits =>
      exact .inr (.inr ⟨by simp, applyAll_keeps
        (List.forall_mem_singleton.2 fun _ _ h hd => h.append hd) (.refl c)⟩)
  | build draft =>
      exact .inr (.inr ⟨by simp, applyAll_keeps
        (List.forall_mem_singleton.2 fun _ _ h hd => h.build hd) (.refl c)⟩)
  | candidate time bits =>
      exact .inr (.inr ⟨by simp, applyAll_keeps
        (List.forall_mem_singleton.2 fun _ _ h hd => h.candidate hd) (.refl c)⟩)
  | extend count spacing bits =>
      refine .inr (.inr ⟨by simp, ?_⟩)
      rw [run, MemoryChain.extend, applyTimes_eq_applyAll]
      refine applyAll_keeps (P := c.Prolongs) (fun op hop _ _ h hd => ?_) (.refl c)
      rw [List.eq_of_mem_replicate hop] at hd
      exact h.build hd

/-- The chain with all blocks forgotten that have the property `q`, and those that were before. -/
def forgetWhere (q : Block → Prop) [DecidablePred q] (c : MemoryChain) : MemoryChain :=
  c.mapEntries fun e => if q e.block then { e with forgotten := true } else e

theorem forgetBelow_of_lt (htip : c.tip.block.height < .top) (k : Height) :
    c.forgetBelow k = .ok (c.forgetWhere (·.height < k)) := by
  rw [forgetBelow, if_neg (Height.ne_of_lt htip)]
  rfl

theorem run_forgetBelow (htip : c.tip.block.height < .top) (k : Height) :
    (Operation.run c (.forgetBelow k)).1 = c.forgetWhere (·.height < k) := by
  simp only [Operation.run, applyAll, forgetBelow_of_lt htip]

theorem run_failAt (c : MemoryChain) (k : Height) :
    (Operation.run c (.failAt k)).1 =
      match c.blockAt k with
      | .error _ => c
      | .ok block =>
        c.mapEntries fun e => if e.block.id = block.id then { e with failing := true } else e := by
  simp only [Operation.run, applyAll, failAt]
  cases c.blockAt k with
  | error halt => rfl
  | ok block => rfl

theorem mem_blocks_of_blockAt (h : c.blockAt k = .ok b) : b ∈ c.blocks := by
  obtain ⟨e, he, rfl⟩ := blockAt_eq_ok_iff.1 h
  exact mem_blocks.2 ⟨e, List.mem_reverse.1 (List.mem_of_find?_eq_some he), rfl⟩

/-- The operation gives a mark to this block.  The mark is one that forgetting gives, or one that
failing gives. -/
def Operation.Gives (forgets fails : Bool) (op : Operation) (c : MemoryChain) (b : Block) : Prop :=
  (forgets = true ∧ ∃ k, op = .forgetBelow k ∧ b ∈ c.blocks ∧ b.height < k) ∨
    fails = true ∧ ∃ k, op = .failAt k ∧ c.blockAt k = .ok b

/-- **One operation more** marks the blocks to which it gives the mark, and no others. -/
theorem marked_run_iff {forgets fails : Bool} (hc : c.Linked) (htip : c.tip.block.height < .top)
    (hunmarked : ∀ e : Entry, e.failing = false → e.forgotten = false → mark e = false)
    (hforgets : ∀ e : Entry, mark { e with forgotten := true } = (mark e || forgets))
    (hfails : ∀ e : Entry, mark { e with failing := true } = (mark e || fails))
    (op : Operation) :
    (op.run c).1.Marked mark b ↔ c.Marked mark b ∨ op.Gives forgets fails c b := by
  rcases op.run_cases c with ⟨k, rfl⟩ | ⟨k, rfl⟩ | ⟨hop, hprolongs⟩
  · rw [run_forgetBelow htip, forgetWhere, marked_mapEntries_iff (·.height < k)
      (fun e => { e with forgotten := true }) forgets (fun _ => rfl) hforgets]
    simp [Operation.Gives]
  · rw [run_failAt]
    cases hblock : c.blockAt k with
    | error halt => simp [Operation.Gives, hblock]
    | ok block =>
        simp only
        rw [marked_mapEntries_iff (·.id = block.id)
          (fun e => { e with failing := true }) fails (fun _ => rfl) hfails]
        -- names are not given out twice, so it is the block itself that has the name
        have hname : b ∈ c.blocks ∧ b.id = block.id ↔ block = b := by
          constructor
          · rintro ⟨hb, hid⟩
            obtain ⟨e, he, rfl⟩ := mem_blocks.1 hb
            obtain ⟨f, hf, rfl⟩ := mem_blocks.1 (mem_blocks_of_blockAt hblock)
            rw [hc.eq_of_id he hf hid]
          · rintro rfl
            exact ⟨mem_blocks_of_blockAt hblock, rfl⟩
        simp [Operation.Gives, hname, hblock]
  · rw [hprolongs.marked_iff hunmarked, or_iff_left]
    rintro (⟨-, k, hk, -⟩ | ⟨-, k, hk, -⟩)
    · exact (hop k).1 hk
    · exact (hop k).2 hk

/-! ## Forgetting, place by place -/

/-- Marks the name in the place of a height as forgotten, on a chain whose first block is at the
height `first`.  Beyond the newest block there is no name. -/
def forgetPlace (first : Nat) (c : MemoryChain) (height : Nat) : Option MemoryChain :=
  c.entries.reverse[height - first]?.map fun e => c.forgetWhere (·.id = e.block.id)

section
variable {q r : Block → Prop} [DecidablePred q] [DecidablePred r]

theorem forgetWhere_congr (h : ∀ e ∈ c.entries, q e.block ↔ r e.block) :
    c.forgetWhere q = c.forgetWhere r := by
  refine mapEntries_congr fun e he => ?_
  simp only [h e he]

theorem forgetWhere_of_none (h : ∀ e ∈ c.entries, ¬ q e.block) : c.forgetWhere q = c := by
  rw [forgetWhere, mapEntries_congr fun e he => if_neg (h e he)]
  exact mapEntries_self c

theorem forgetWhere_forgetWhere :
    (c.forgetWhere q).forgetWhere r = c.forgetWhere fun b => q b ∨ r b := by
  rw [forgetWhere, forgetWhere, mapEntries_mapEntries]
  refine mapEntries_congr fun e _ => ?_
  by_cases hq : q e.block <;> by_cases hr : r e.block <;> simp [hq, hr]

/-- A block stays in its place when it is forgotten. -/
theorem getElem?_forgetWhere (hi : c.entries.reverse[i]? = some e) :
    ∃ f, (c.forgetWhere q).entries.reverse[i]? = some f ∧ f.block = e.block := by
  refine ⟨if q e.block then { e with forgotten := true } else e, ?_, ?_⟩
  · rw [forgetWhere, entries_mapEntries, ← List.map_reverse, List.getElem?_map, hi]
    rfl
  · split
    · rfl
    · rfl

end

namespace Grown

/-- The name in a place is that of the block at this height, and of no other. -/
theorem id_eq_iff (h : c.Grown base) (htip : c.tip.block.height < .top)
    (he : c.entries.reverse[n]? = some e) (hf : f ∈ c.entries) :
    f.block.id = e.block.id ↔ f.block.height.toNat = base.toNat + n := by
  constructor
  · intro hid
    rw [h.linked.eq_of_id hf (List.mem_reverse.1 (List.mem_of_getElem? he)) hid,
      h.height_of_getElem? htip he]
  · intro hheight
    obtain ⟨i, hi⟩ := List.getElem?_of_mem (List.mem_reverse.2 hf)
    obtain rfl : i = n := by
      have := h.height_of_getElem? htip hi
      omega
    rw [hi] at he
    rw [Option.some.inj he]

/-- **One place more**: where all lower heights are forgotten, the name in the next place is that of
the one block at the next height. -/
theorem forgetPlace_forgetWhere (h : c.Grown base) (htip : c.tip.block.height < .top)
    (hn : n < c.entries.length) :
    forgetPlace base.toNat (c.forgetWhere (·.height.toNat < base.toNat + n)) (base.toNat + n) =
      some (c.forgetWhere (·.height.toNat < base.toNat + (n + 1))) := by
  obtain ⟨e, he⟩ : ∃ e, c.entries.reverse[n]? = some e :=
    ⟨_, List.getElem?_eq_getElem (by rwa [List.length_reverse])⟩
  obtain ⟨f, hf, hblock⟩ := getElem?_forgetWhere (q := (·.height.toNat < base.toNat + n)) he
  rw [forgetPlace, Nat.add_sub_cancel_left, hf, Option.map_some, forgetWhere_forgetWhere, hblock]
  refine congrArg some (forgetWhere_congr fun a ha => ?_)
  rw [h.id_eq_iff htip he ha]
  omega

/-- After `n` places, the lowest `n` heights are forgotten. -/
theorem foldlM_forgetPlace (h : c.Grown base) (htip : c.tip.block.height < .top)
    (hn : n ≤ c.entries.length) :
    (List.range' base.toNat n).foldlM (forgetPlace base.toNat) c =
      some (c.forgetWhere (·.height.toNat < base.toNat + n)) := by
  induction n with
  | zero =>
      have hlow : ∀ e ∈ c.entries, ¬ e.block.height.toNat < base.toNat + 0 :=
        fun e he => Nat.not_lt_of_le (h.height_of_mem htip he).1
      rw [forgetWhere_of_none hlow]
      rfl
  | succ n ih =>
      rw [List.range'_concat, List.foldlM_append, ih (Nat.le_of_succ_le hn), Nat.one_mul]
      simp only [Option.bind_eq_bind, Option.bind_some, List.foldlM_cons, List.foldlM_nil,
        h.forgetPlace_forgetWhere htip hn]
      rfl

/-- **To forget below a height is to forget place by place**, from the first height up to the given
one or past the tip, whichever comes first.  There is a name in every place on the way.  This holds
after any operations, since they leave a grown chain (`Grown.operate`). -/
theorem forgetBelow_eq_foldlM (h : c.Grown base) (htip : c.tip.block.height < .top) (k : Height) :
    ∃ d, c.forgetBelow k = .ok d ∧
      (List.range' base.toNat (min k.toNat (c.tip.block.height.toNat + 1) - base.toNat)).foldlM
        (forgetPlace base.toNat) c = some d := by
  have hlast : c.tip.block.height.toNat = base.toNat + c.older.length :=
    h.height_of_lt htip (blocks_tip c)
  have hlength : c.entries.length = c.older.length + 1 := List.length_cons
  refine ⟨_, forgetBelow_of_lt htip k, ?_⟩
  rw [h.foldlM_forgetPlace htip (by omega)]
  refine congrArg some (forgetWhere_congr fun e he => ?_)
  have hheight := h.height_of_mem htip he
  rw [Height.lt_def]
  omega

end Grown

/-! ## Marks after any operations -/

/-- No operation lowers the tip. -/
theorem height_tip_le_operate (c : MemoryChain) (ops : List Operation) :
    c.tip.block.height ≤ (c.operate ops).tip.block.height := by
  refine operate_keeps (P := fun d => c.tip.block.height ≤ d.tip.block.height) ?_
    (Nat.le_refl c.tip.block.height.toNat) ops
  intro d d' hle hstep
  refine Nat.le_trans hle ?_
  cases hstep with
  | append happend =>
      rw [(append_eq_ok happend).2.2]
      exact Height.le_next _
  | candidate hcandidate => rw [(candidate_eq_ok hcandidate).2.1]
  | mark g hg =>
      show d.tip.block.height.toNat ≤ (g d.tip).block.height.toNat
      rw [hg]

/-- What a run of operations marks was marked before, or by one of them. -/
theorem marked_operate_iff {forgets fails : Bool} (hc : c.Grown base) {ops : List Operation}
    (htip : (c.operate ops).tip.block.height < .top)
    (hunmarked : ∀ e : Entry, e.failing = false → e.forgotten = false → mark e = false)
    (hforgets : ∀ e : Entry, mark { e with forgotten := true } = (mark e || forgets))
    (hfails : ∀ e : Entry, mark { e with failing := true } = (mark e || fails)) :
    (c.operate ops).Marked mark b ↔ c.Marked mark b ∨
      ∃ before op after, ops = before ++ op :: after ∧
        op.Gives forgets fails (c.operate before) b := by
  induction ops generalizing c with
  | nil => simp [operate]
  | cons op ops ih =>
      have hlow : c.tip.block.height < .top :=
        Nat.lt_of_le_of_lt (height_tip_le_operate c (op :: ops)) htip
      have hrest : (c.operate (op :: ops)).Marked mark b ↔ (op.run c).1.Marked mark b ∨
          ∃ before op' after, ops = before ++ op' :: after ∧
            op'.Gives forgets fails ((op.run c).1.operate before) b := ih (hc.operate [op]) htip
      rw [hrest, marked_run_iff hc.linked hlow hunmarked hforgets hfails op, or_assoc]
      refine or_congr_right ?_
      constructor
      · rintro (hset | ⟨before, op', after, rfl, hset⟩)
        · exact ⟨[], op, ops, rfl, hset⟩
        · exact ⟨op :: before, op', after, rfl, hset⟩
      · rintro ⟨before, op', after, hops, hset⟩
        rcases List.cons_eq_append_iff.1 hops with ⟨rfl, hhead⟩ | ⟨before, rfl, htail⟩
        · cases hhead
          exact .inl hset
        · exact .inr ⟨before, op', after, htail, hset⟩

/-- **A mark is due to one of the operations**, made on the chain as it was then. -/
theorem mark_iff_of_operations {first : MemoryChain} {ops : List Operation} {forgets fails : Bool}
    (hfirst : startAt base time bits = .ok first)
    (htip : (first.operate ops).tip.block.height < .top) (he : e ∈ (first.operate ops).entries)
    (hunmarked : ∀ e : Entry, e.failing = false → e.forgotten = false → mark e = false)
    (hforgets : ∀ e : Entry, mark { e with forgotten := true } = (mark e || forgets))
    (hfails : ∀ e : Entry, mark { e with failing := true } = (mark e || fails)) :
    mark e = true ↔ ∃ before op after, ops = before ++ op :: after ∧
      op.Gives forgets fails (first.operate before) e.block := by
  have hstart := Grown.start hfirst
  have hfresh : ¬ first.Marked mark e.block := by
    rintro ⟨f, hf, -, hmarked⟩
    obtain ⟨hfailing, hforgotten⟩ := Unmarked.startAt hfirst f hf
    rw [hunmarked f hfailing hforgotten] at hmarked
    cases hmarked
  rw [← marked_iff_of_mem (hstart.operate ops).linked he,
    marked_operate_iff hstart htip hunmarked hforgets hfails, or_iff_right hfresh]

/-- An operation of one form is told by its height. -/
theorem exists_split_iff {form : Height → Operation} {ops : List Operation}
    {q : List Operation → Height → Prop} :
    (∃ before op after, ops = before ++ op :: after ∧ ∃ k, op = form k ∧ q before k) ↔
      ∃ before k after, ops = before ++ form k :: after ∧ q before k := by
  constructor
  · rintro ⟨before, _, after, hops, k, rfl, hk⟩
    exact ⟨before, k, after, hops, hk⟩
  · rintro ⟨before, k, after, hops, hk⟩
    exact ⟨before, _, after, hops, k, rfl, hk⟩

/-- **Walks on a chain with forgotten and failing blocks.**  Whatever was done to the chain before,
the first height on the way down that is not free decides what a walk brings, from every stored
block and over every distance.  The forgotten blocks are those that were stored below the height of
some call to forget when it was made, and the failing ones were at the height of a call to fail. -/
theorem walk_of_operations {first : MemoryChain} {ops : List Operation}
    (hfirst : startAt base time bits = .ok first) (hc : first.operate ops = c)
    (htip : c.tip.block.height < .top) :
    (∀ height, (∃ b, c.blockAt height = .ok b) ↔ base ≤ height ∧ height ≤ c.tip.block.height) ∧
    (∀ height b, c.blockAt height = .ok b → ∀ distance r,
      c.store.back distance b = r ↔ c.Descent base height distance r) ∧
    ∀ e ∈ c.entries,
      (e.forgotten = true ↔ ∃ before k after, ops = before ++ .forgetBelow k :: after ∧
        e.block ∈ (first.operate before).blocks ∧ e.block.height < k) ∧
      (e.failing = true ↔ ∃ before k after, ops = before ++ .failAt k :: after ∧
        (first.operate before).blockAt k = .ok e.block) := by
  subst hc
  have hgrown := (Grown.start hfirst).operate ops
  refine ⟨fun height => hgrown.exists_blockAt_iff htip,
    fun height b hb distance r => hgrown.back_eq_iff_descent htip hb, fun e he => ⟨?forgot, ?fail⟩⟩
  case forgot =>
    rw [mark_iff_of_operations hfirst htip he (fun _ _ h => h)
      (fun _ => (Bool.or_true _).symm) (fun _ => (Bool.or_false _).symm)]
    simp only [Operation.Gives, Bool.false_eq_true, false_and, true_and, or_false]
    exact exists_split_iff
  case fail =>
    rw [mark_iff_of_operations hfirst htip he (fun _ h _ => h)
      (fun _ => (Bool.or_false _).symm) (fun _ => (Bool.or_true _).symm)]
    simp only [Operation.Gives, Bool.false_eq_true, false_and, true_and, false_or]
    exact exists_split_iff

/-- Operations that leave three blocks forgotten, of which the newest fails as well, and two blocks
that were appended afterwards. -/
def scarring : List Operation :=
  [.extend 5 600 Network.mainnet.limitBits,
    .forgetBelow ⟨703, by decide⟩,
    .failAt ⟨702, by decide⟩,
    .extend 2 600 Network.mainnet.limitBits]

/-- From the tip at height 707, four steps are free.  The fifth meets a block that fails and is
forgotten, and failing counts first. -/
theorem walk_of_operations_scarring :
    ∃ first c, startAt ⟨700, by decide⟩ ⟨1000, by decide⟩ Network.mainnet.limitBits = .ok first ∧
      first.operate scarring = c ∧ c.tip.block.height < .top ∧
      c.blockAt ⟨707, by decide⟩ = .ok c.tip.block ∧
      c.Descent ⟨700, by decide⟩ ⟨707, by decide⟩ 4 (.ok (c.older[3]?.map (·.block))) ∧
      c.Descent ⟨700, by decide⟩ ⟨707, by decide⟩ 5
        (.error (.storage (.readFailed ("block " ++ (Hash.ofWord 3 (by decide)).text)))) ∧
      c.entries.map (fun e => (e.block.height.toNat, e.forgotten, e.failing)) =
        [(707, false, false), (706, false, false), (705, false, false), (704, false, false),
          (703, false, false), (702, true, true), (701, true, false), (700, true, false)] := by
  obtain ⟨first, hfirst⟩ : ∃ first, startAt ⟨700, by decide⟩ ⟨1000, by decide⟩
      Network.mainnet.limitBits = .ok first := ⟨_, rfl⟩
  have htip : (first.operate scarring).tip.block.height < .top := by
    cases hfirst
    decide +kernel
  have hb : (first.operate scarring).blockAt ⟨707, by decide⟩ =
      .ok (first.operate scarring).tip.block := by
    cases hfirst
    decide +kernel
  obtain ⟨-, hwalk, -⟩ := walk_of_operations hfirst rfl htip
  refine ⟨first, _, hfirst, rfl, htip, hb, (hwalk _ _ hb 4 _).1 ?_, (hwalk _ _ hb 5 _).1 ?_, ?_⟩
  · cases hfirst
    decide +kernel
  · cases hfirst
    decide +kernel
  · cases hfirst
    decide +kernel

end MemoryChain
end DifficultyRules
