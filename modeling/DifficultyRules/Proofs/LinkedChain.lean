/-
# `DifficultyRules.Proofs.LinkedChain` — a chain in memory as the store that it makes

A chain in memory keeps its blocks in a list, the newest first, and answers as a
store by looking for a name in that list.  What a rule reads is therefore not
the list but the walk along parents, and it takes an invariant to see that the
two are the same.

The invariant is `MemoryChain.Linked`.  Each block names the one below it in the
list as its parent, at the next height, and names are given out in increasing
order.  Because of the order no name occurs twice, so the lookup of a parent
finds the block below and not another one of the same name
(`Linked.parent_of_follows`).  Step by step, the walk from a block of an unmarked
chain comes to the blocks below it in the list (`Linked.back_of_getElem?`).

A chain that begins with genesis and is not marked is `Intact`, and stays so however
many blocks are appended.  On its store, the walk from the tip is the list itself:
it finds every block of the list, and nothing else (`Intact.getElem?_of_back`).
-/
import Mathlib.Data.List.Chain
import DifficultyRules.MemoryChain.Growth
import DifficultyRules.Proofs.Walk

namespace DifficultyRules

namespace MemoryChain

/-! ## Linked chains -/

/-- The block of `newer` was appended on that of `older`. -/
structure Entry.Follows (newer older : Entry) : Prop where
  parent : newer.block.parent = older.block.id
  height : newer.block.height = older.block.height.next
  work : newer.block.work = older.block.work + newer.block.bits.work
  name : older.block.id.value < newer.block.id.value

/-- Every block follows the next older one, and the names from `nextId` on are not taken. -/
structure Linked (c : MemoryChain) : Prop where
  follows : c.entries.IsChain Entry.Follows
  named : c.tip.block.id.value < c.nextId
  length_lt : c.entries.length < c.nextId

variable {c d : MemoryChain} {height : Height} {time : Timestamp} {bits : Compact}

theorem Linked.startAt (h : startAt height time bits = .ok c) : c.Linked := by
  obtain ⟨-, hentries, hnext, htip⟩ := startAt_eq_ok h
  refine ⟨?_, ?_, ?_⟩
  · rw [hentries]
    exact .singleton c.tip
  · rw [htip, hnext]
    exact Nat.one_lt_two
  · rw [hentries, hnext]
    exact Nat.one_lt_two

theorem Linked.append (h : c.Linked) (hd : c.append time bits = .ok d) : d.Linked := by
  obtain ⟨hentries, hnext, htip⟩ := append_eq_ok hd
  have hfollows : d.tip.Follows c.tip := by
    rw [htip]
    exact ⟨rfl, rfl, rfl, h.named⟩
  refine ⟨?_, ?_, ?_⟩
  · rw [hentries]
    exact .cons_cons hfollows h.follows
  · rw [htip, hnext]
    exact Nat.lt_succ_self c.nextId
  · rw [hentries, hnext]
    exact Nat.succ_lt_succ h.length_lt

theorem Linked.candidate {header : Header} (h : c.Linked)
    (hd : c.candidate time bits = .ok (header, d)) : d.Linked := by
  obtain ⟨hentries, htip, hnext⟩ := candidate_eq_ok hd
  refine ⟨?_, ?_, ?_⟩
  · rw [hentries]
    exact h.follows
  · rw [htip, hnext]
    exact Nat.lt_succ_of_lt h.named
  · rw [hentries, hnext]
    exact Nat.lt_succ_of_lt h.length_lt

/-! ## Lookups -/

/-- Older blocks have smaller names. -/
theorem Linked.pairwise_name (h : c.Linked) :
    c.entries.Pairwise fun newer older => older.block.id.value < newer.block.id.value := by
  have hchain : (c.entries.map fun e => e.block.id.value).IsChain (· > ·) :=
    List.isChain_map_of_isChain _ (fun _ _ hfollows => hfollows.name) h.follows
  exact List.pairwise_map.1 hchain.pairwise

/-- A block is found under its name. -/
theorem Linked.find?_of_mem (h : c.Linked) {e : Entry} (he : e ∈ c.entries) :
    c.find? e.block.id = some e := by
  obtain ⟨newer, older, hentries⟩ := List.append_of_mem he
  have hnames := h.pairwise_name
  rw [hentries, List.pairwise_append] at hnames
  refine List.find?_eq_some_iff_append.2 ⟨by simp, newer, older, hentries, fun e' he' => ?_⟩
  -- what the search passes on its way to `e` is newer, and so has a larger name
  have hlt := hnames.2.2 e' he' e List.mem_cons_self
  simp only [Bool.not_eq_true', decide_eq_false_iff_not]
  intro hid
  rw [hid] at hlt
  exact Nat.lt_irrefl _ hlt

/-- The lookup of a stored block depends on its marks. -/
theorem Linked.get_of_mem (h : c.Linked) {e : Entry} (he : e ∈ c.entries) :
    c.store.get e.block.id =
      if e.failing then .error (.storage (.readFailed ("block " ++ e.block.id.text)))
      else if e.forgotten then .ok none
      else .ok (some e.block) := by
  simp only [store, h.find?_of_mem he]

/-- The parent of a block is the block that it follows, as far as its marks allow. -/
theorem Linked.parent_of_follows (h : c.Linked) {newer older : Entry}
    (hfollows : newer.Follows older) (holder : older ∈ c.entries) :
    c.store.parent newer.block =
      if older.failing then .error (.storage (.readFailed ("block " ++ older.block.id.text)))
      else if older.forgotten then .ok none
      else .ok (some older.block) := by
  have hgenesis : newer.block.height.isGenesis = false := by
    rw [hfollows.height]
    exact Height.isGenesis_next _
  rw [Store.parent, hgenesis, hfollows.parent, h.get_of_mem holder, hfollows.height]
  cases older.failing with
  | true => rfl
  | false =>
      cases older.forgotten with
      | true => rfl
      | false => simp

/-! ## The walk on an unmarked chain -/

/-- No lookup of the chain is kept from its block. -/
def Unmarked (c : MemoryChain) : Prop := ∀ e ∈ c.entries, e.failing = false ∧ e.forgotten = false

theorem Unmarked.startAt (h : startAt height time bits = .ok c) : c.Unmarked := by
  obtain ⟨-, hentries, -, htip⟩ := startAt_eq_ok h
  intro e he
  rw [hentries, List.mem_singleton] at he
  rw [he, htip]
  exact ⟨rfl, rfl⟩

theorem Unmarked.candidate {header : Header} (h : c.Unmarked)
    (hd : c.candidate time bits = .ok (header, d)) : d.Unmarked := by
  rw [Unmarked, (candidate_eq_ok hd).1]
  exact h

theorem Unmarked.append (h : c.Unmarked) (hd : c.append time bits = .ok d) : d.Unmarked := by
  obtain ⟨hentries, -, htip⟩ := append_eq_ok hd
  intro e he
  rw [hentries, List.mem_cons] at he
  rcases he with rfl | he
  · rw [htip]
    exact ⟨rfl, rfl⟩
  · exact h e he

/-- The walk from the block at one place of the list comes to the block so many places on. -/
theorem Linked.back_of_getElem? (h : c.Linked) (hmarks : c.Unmarked) {i n : Nat} {e f : Entry}
    (he : c.entries[i]? = some e) (hf : c.entries[i + n]? = some f) :
    c.store.back n e.block = .ok (some f.block) := by
  induction n generalizing i e with
  | zero =>
      rw [Nat.add_zero, he] at hf
      cases hf
      rfl
  | succ n ih =>
      have hlength : i + 1 < c.entries.length := by
        have := (List.getElem?_eq_some_iff.1 hf).1
        omega
      have hnext : c.entries[i + 1]? = some c.entries[i + 1] := List.getElem?_eq_getElem hlength
      have hfollows : e.Follows c.entries[i + 1] := by
        obtain ⟨_, rfl⟩ := List.getElem?_eq_some_iff.1 he
        exact h.follows.getElem i hlength
      have hparent : c.store.parent e.block = .ok (some c.entries[i + 1].block) := by
        obtain ⟨hfailing, hforgotten⟩ := hmarks _ (List.getElem_mem hlength)
        rw [h.parent_of_follows hfollows (List.getElem_mem hlength), hfailing, hforgotten]
        rfl
      rw [Store.back_succ, Store.viaParent_of_some hparent]
      exact ih hnext (by rwa [Nat.add_assoc, Nat.add_comm 1 n])

/-! ## Chains from genesis -/

/-- The chain begins with genesis, and no lookup is kept from its blocks. -/
structure Intact (c : MemoryChain) : Prop where
  linked : c.Linked
  unmarked : c.Unmarked
  rooted : c.tip.block.height.toNat + 1 = c.entries.length

namespace Intact

/-- There are never more blocks than names, so heights stay below the largest one. -/
theorem height_lt (h : c.Intact) : c.tip.block.height < .top := by
  have hlength := h.linked.length_lt
  have hnames := c.nextId_lt
  have hrooted := h.rooted
  show c.tip.block.height.toNat < 1 <<< 64 - 1
  omega

theorem start (h : MemoryChain.startAt .genesis time bits = .ok c) : c.Intact := by
  obtain ⟨-, hentries, -, htip⟩ := startAt_eq_ok h
  refine ⟨.startAt h, .startAt h, ?_⟩
  rw [hentries, htip]
  rfl

theorem candidate {header : Header} (h : c.Intact)
    (hd : c.candidate time bits = .ok (header, d)) : d.Intact := by
  obtain ⟨hentries, htip, -⟩ := candidate_eq_ok hd
  refine ⟨h.linked.candidate hd, h.unmarked.candidate hd, ?_⟩
  rw [htip, hentries]
  exact h.rooted

theorem append (h : c.Intact) (hd : c.append time bits = .ok d) : d.Intact := by
  obtain ⟨hentries, -, htip⟩ := append_eq_ok hd
  refine ⟨h.linked.append hd, h.unmarked.append hd, ?_⟩
  rw [hentries, htip, List.length_cons, ← h.rooted]
  exact congrArg (· + 1) (Height.toNat_next_of_lt h.height_lt)

/-- Appending many blocks leaves the chain intact, also when it halts on the way. -/
theorem appendAll (h : c.Intact) (blocks : List (Timestamp × Compact)) :
    (c.appendAll blocks).1.Intact := by
  refine applyAll_keeps ?_ h
  intro op hop c d hc hd
  obtain ⟨⟨time, bits⟩, -, rfl⟩ := List.mem_map.1 hop
  exact hc.append hd

variable {n : Nat} {e : Entry} {b q : Block}

theorem back_of_getElem? (h : c.Intact) (he : c.entries[n]? = some e) :
    c.store.back n c.tip.block = .ok (some e.block) :=
  h.linked.back_of_getElem? h.unmarked (i := 0) rfl (by rwa [Nat.zero_add])

/-- The walk from the tip ends with genesis. -/
theorem complete (h : c.Intact) : c.store.Complete c.tip.block := by
  have hlast : c.tip.block.height.toNat < c.entries.length := by
    rw [← h.rooted]
    exact Nat.lt_succ_self _
  have hback := h.back_of_getElem? (List.getElem?_eq_getElem hlast)
  refine ⟨_, _, hback, decide_eq_true ?_⟩
  have := Store.height_of_back h.height_lt hback
  omega

/-- The walk from the tip finds nothing but the blocks of the list. -/
theorem getElem?_of_back (h : c.Intact) (hb : c.store.back n c.tip.block = .ok (some b)) :
    ∃ e, c.entries[n]? = some e ∧ e.block = b := by
  have hn : n < c.entries.length := by
    rw [← h.rooted]
    by_contra hn
    have hnone := h.complete.back_of_lt h.height_lt (n := n) (by omega)
    rw [hb] at hnone
    cases hnone
  have he : c.entries[n]? = some c.entries[n] := List.getElem?_eq_getElem hn
  refine ⟨_, he, ?_⟩
  rw [h.back_of_getElem? he] at hb
  exact Option.some.inj (Except.ok.inj hb)

/-- A parent that the walk comes by is the block that its child follows. -/
theorem follows_of_parent (h : c.Intact) (hb : c.store.back n c.tip.block = .ok (some b))
    (hq : c.store.parent b = .ok (some q)) :
    ∃ e f, e ∈ c.entries ∧ e.block = b ∧ f.block = q ∧ e.Follows f := by
  obtain ⟨e, he, rfl⟩ := h.getElem?_of_back hb
  rw [← Store.back_one, ← Store.back_add_of_some hb] at hq
  obtain ⟨f, hf, rfl⟩ := h.getElem?_of_back hq
  refine ⟨e, f, List.mem_of_getElem? he, rfl, rfl, ?_⟩
  obtain ⟨_, rfl⟩ := List.getElem?_eq_some_iff.1 he
  obtain ⟨hlength, rfl⟩ := List.getElem?_eq_some_iff.1 hf
  exact h.linked.follows.getElem n hlength

end Intact

/-! ## A chain to try statements on -/

/-- The chain of these blocks, of which the first is genesis. -/
def grown : List (Timestamp × Compact) → Option MemoryChain
  | [] => none
  | (time, bits) :: blocks =>
    (MemoryChain.startAt .genesis time bits).toOption.map fun c => (c.appendAll blocks).1

theorem Intact.of_grown {blocks : List (Timestamp × Compact)} (h : grown blocks = some c) :
    c.Intact := by
  cases blocks with
  | nil => cases h
  | cons block blocks =>
      rw [grown] at h
      obtain ⟨first, hfirst, rfl⟩ := Option.map_eq_some_iff.1 h
      cases hfirst
      exact (start rfl).appendAll blocks

/-- A chain is known by what can be computed of it. -/
theorem Intact.of_grown_map {α : Type} {blocks : List (Timestamp × Compact)}
    {f : MemoryChain → α} {a : α} (h : (grown blocks).map f = some a) :
    ∃ c, grown blocks = some c ∧ c.Intact ∧ f c = a := by
  obtain ⟨c, hc, ha⟩ := Option.map_eq_some_iff.1 h
  exact ⟨c, hc, .of_grown hc, ha⟩

end MemoryChain
end DifficultyRules
