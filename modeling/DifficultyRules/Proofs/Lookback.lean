/-
# `DifficultyRules.Proofs.Lookback` — how far back a rule looks

A rule reads the store along the walk from the parent, and stops after a number of
steps that is known beforehand (`Rule.lookback`).

    retarget                      interval - 1
    emergency                     16    (a median of eleven, from six steps back)
    sliding window                146   (a median of three, from 144 steps back)
    return from minimal           the height above the last start of an interval
    all others                    0

Two stores that agree on so much of the walk are the same to the rule.  Blocks
further back, or of another branch, have no part in its verdict, nor in its log.

All rules but one read at fixed distances.  The return from minimal difficulty
searches, and what it searches for may not exist.  But a search never passes the
start of an interval, and heights go down by one with each step, so it is there in
time.  Where a search stops is a fact about the walk alone (`Store.StopsAt`), and a
search that stops somewhere finds whatever the walk has come to there.

At the largest height there is no next one, and a walk can stay there.  But there are
only so many names.  A walk of more lookups has come back to a block that it had passed,
and from there it passes the same blocks for ever (`Store.passes_of_back_eq`).  So a
search that stops at all stops within `History.lookupBound`, at every height, and the
bound takes nothing away (`Store.find_eq_nearest_of_le`).
-/
import Mathlib.Data.Finset.Card
import Mathlib.Order.Nat
import DifficultyRules.Proofs.Demand
import DifficultyRules.Proofs.Path
import DifficultyRules.Proofs.SteadyTable

namespace DifficultyRules
namespace Store

variable {s t : Store} {b c : Block} {q : Block → Bool} {w : Nat → Block} {i j m n most : Nat}

/-! ## Where a search stops -/

/-- A search for `q` goes on for `n` steps: the blocks before do not have the property, and the
last step brings one that does, or none at all. -/
structure StopsAt (s : Store) (q : Block → Bool) (b : Block) (n : Nat) : Prop where
  passes : ∀ k, k < n → ∃ d, s.back k b = .ok (some d) ∧ q d = false
  stops : ∀ d, s.back n b = .ok (some d) → q d = true

/-- A search stops at the latest where the block has the property, if there is a block. -/
theorem exists_stopsAt (h : ∀ c, s.back n b = .ok (some c) → q c = true) :
    ∃ k, k ≤ n ∧ s.StopsAt q b k := by
  classical
  have hstops : ∃ k, ∀ c, s.back k b = .ok (some c) → q c = true := ⟨n, h⟩
  refine ⟨Nat.find hstops, Nat.find_min' hstops h, fun k hk => ?_, Nat.find_spec hstops⟩
  obtain ⟨d, hgoes⟩ := not_forall.1 (Nat.find_min hstops hk)
  obtain ⟨hd, hq⟩ := Classical.not_imp.1 hgoes
  exact ⟨d, hd, Bool.eq_false_iff.2 hq⟩

theorem StopsAt.congr (h : s.StopsAt q b n) (hst : SameWalk s t n b) : t.StopsAt q b n where
  passes k hk := by
    rw [← hst k (Nat.le_of_lt hk)]
    exact h.passes k hk
  stops d hd := by
    rw [← hst n (Nat.le_refl n)] at hd
    exact h.stops d hd

/-- A search that has passed `n` blocks goes on from where the walk has come. -/
theorem find_of_passes (hpasses : ∀ k, k < n → ∃ d, s.back k b = .ok (some d) ∧ q d = false)
    (more : Nat) :
    History.find s q (n + more + 1) (.start b) =
      match s.back n b with
      | .ok (some c) => History.find s q (more + 1) (.start c)
      | r => r := by
  induction n generalizing b with
  | zero => rw [Nat.zero_add, back_zero]
  | succ n ih =>
      obtain ⟨d, hd, hq⟩ := hpasses 0 (Nat.succ_pos n)
      cases hd
      rw [show n + 1 + more + 1 = n + more + 2 by omega, find_start_add_two,
        if_neg (Bool.eq_false_iff.1 hq), back_succ, viaParent, viaParent]
      cases hp : s.parent b with
      | error e => rfl
      | ok found =>
          cases found with
          | none => rfl
          | some p =>
              refine ih fun k hk => ?_
              rw [← viaParent_of_some hp (k := s.back k), ← back_succ]
              exact hpasses (k + 1) (Nat.succ_lt_succ hk)

/-- What a search finds is what the walk has come to where it stops. -/
theorem find_of_stopsAt (h : s.StopsAt q b n) (hmost : n < most) :
    History.find s q most (.start b) = s.back n b := by
  obtain ⟨more, rfl⟩ := Nat.exists_eq_add_of_lt hmost
  rw [find_of_passes h.passes]
  cases hback : s.back n b with
  | error e => rfl
  | ok found =>
      cases found with
      | none => rfl
      | some c => simp only [History.find, History.next, h.stops c hback, if_true]

/-- A search that never stops finds nothing, however far it may go. -/
theorem find_eq_none (hpasses : ∀ k, ∃ d, s.back k b = .ok (some d) ∧ q d = false) (most : Nat) :
    History.find s q most (.start b) = .ok none := by
  cases most with
  | zero => rfl
  | succ n =>
      obtain ⟨d, hd, hq⟩ := hpasses n
      have hfind := find_of_passes (n := n) (fun k _ => hpasses k) 0
      simp only [hd, Nat.add_zero, Nat.zero_add, find_start_one, hq] at hfind
      exact hfind

/-! ## No walk is too long -/

/-- A path of more lookups than there are names comes back to one of its blocks. -/
theorem Path.exists_eq (h : s.Path b w n) (hn : 1 <<< 256 < n) :
    ∃ i j, i < j ∧ j ≤ n ∧ w i = w j := by
  have hcard : (Finset.range (1 <<< 256)).card < (Finset.range n).card := by
    rwa [Finset.card_range, Finset.card_range]
  obtain ⟨i, hi, j, hj, hne, hname⟩ := Finset.exists_ne_map_eq_of_card_lt_of_maps_to hcard
    (f := fun k => (w k).parent.value) fun k _ => Finset.mem_range.2 (w k).parent.lt
  rw [Finset.mem_range] at hi hj
  -- the name is that of the parents, which are one step further down
  have hparents : w (i + 1) = w (j + 1) := by
    have hfound := get_of_parent (h.step i hi)
    rw [Hash.ext hname, get_of_parent (h.step j hj)] at hfound
    exact (Option.some.inj (Except.ok.inj hfound)).symm
  rcases Nat.lt_or_gt_of_ne hne with hlt | hlt
  · exact ⟨i + 1, j + 1, Nat.succ_lt_succ hlt, hj, hparents⟩
  · exact ⟨j + 1, i + 1, Nat.succ_lt_succ hlt, hi, hparents.symm⟩

/-- A walk that has come back to a block passes the same blocks for ever. -/
theorem passes_of_back_eq (hij : i < j) (hback : s.back i b = s.back j b)
    (hpasses : ∀ k, k < j → ∃ d, s.back k b = .ok (some d) ∧ q d = false) (k : Nat) :
    ∃ d, s.back k b = .ok (some d) ∧ q d = false := by
  induction k using Nat.strongRecOn with
  | ind k ih =>
      rcases Nat.lt_or_ge k j with hk | hk
      · exact hpasses k hk
      · obtain ⟨m, rfl⟩ := Nat.exists_eq_add_of_le hk
        have hround : s.back (j + m) b = s.back (i + m) b := by rw [back_add, back_add, hback]
        rw [hround]
        exact ih (i + m) (Nat.add_lt_add_right hij m)

/-- A search that stops at all stops within the bound. -/
theorem StopsAt.lt_lookupBound (h : s.StopsAt q b n) : n < History.lookupBound := by
  refine Nat.lt_of_not_le fun hn => ?_
  have hlong : 1 <<< 256 + 1 < n := hn
  obtain ⟨far, hfar, -⟩ := h.passes _ hlong
  obtain ⟨w, hw⟩ := exists_path_of_back hfar
  obtain ⟨i, j, hij, hj, hsame⟩ := hw.exists_eq (Nat.lt_succ_self _)
  have hback : s.back i b = s.back j b := by
    rw [hw.back (Nat.le_of_lt (Nat.lt_of_lt_of_le hij hj)), hw.back hj, hsame]
  obtain ⟨d, hd, hq⟩ := passes_of_back_eq hij hback
    (fun k hk => h.passes k (Nat.lt_trans (Nat.lt_of_lt_of_le hk hj) hlong)) n
  rw [h.stops d hd] at hq
  cases hq

theorem nearest_of_stopsAt (h : s.StopsAt q b n) : s.nearest q b = s.back n b :=
  find_of_stopsAt h h.lt_lookupBound

/-- Every block after the first takes a lookup, so the search is over after so many lookups. -/
theorem find_eq_nearest (h : s.StopsAt q b n) (hmost : n < most) :
    History.find s q most (.start b) = s.nearest q b := by
  rw [find_of_stopsAt h hmost, nearest_of_stopsAt h]

/-- A search stops somewhere, or it goes on for ever. -/
theorem stopsAt_or_passes (s : Store) (q : Block → Bool) (b : Block) :
    (∃ n, s.StopsAt q b n) ∨ ∀ k, ∃ d, s.back k b = .ok (some d) ∧ q d = false := by
  refine or_iff_not_imp_left.2 fun hgoes k => ?_
  by_contra hk
  obtain ⟨n, -, hstops⟩ := @exists_stopsAt s b q k fun c hc =>
    Bool.of_not_eq_false fun hq => hk ⟨c, hc, hq⟩
  exact hgoes ⟨n, hstops⟩

/-- **The bound takes nothing away.**  A search that may make more lookups finds the same, on every
store and at every height. -/
theorem find_eq_nearest_of_le (hmost : History.lookupBound ≤ most) :
    History.find s q most (.start b) = s.nearest q b := by
  rcases stopsAt_or_passes s q b with ⟨n, hstops⟩ | hpasses
  · exact find_eq_nearest hstops (Nat.lt_of_lt_of_le hstops.lt_lookupBound hmost)
  · rw [nearest, find_eq_none hpasses, find_eq_none hpasses]

/-! ## Readings on a common walk -/

/-- The block with the middle time of three takes two steps. -/
theorem suitable_congr (h : SameWalk s t 2 b) : s.suitable b = t.suitable b := by
  rw [suitable_eq, suitable_eq, viaParent, viaParent, ← h.parent]
  split
  · rfl
  · rfl
  · next p hp =>
      have hp : s.back 1 b = .ok (some p) := by rw [back_one, hp]
      have hwalk : SameWalk s t 1 p := SameWalk.drop (m := 1) h hp
      rw [viaParent, viaParent, hwalk.parent]

theorem nearest_congr (hst : SameWalk s t n b)
    (h : ∀ c, s.back n b = .ok (some c) → q c = true) : s.nearest q b = t.nearest q b := by
  obtain ⟨k, hk, hstops⟩ := exists_stopsAt h
  rw [nearest_of_stopsAt hstops, nearest_of_stopsAt (hstops.congr (hst.mono hk))]
  exact hst k hk

end Store

/-! ## Every rule on its own -/

section
variable {p : Params} {s t : Store} {parent : Block}

theorem Retarget.demand_congr (h : Store.SameWalk s t (depth p) parent) :
    demand p s parent = demand p t parent := by
  rw [demand, demand, h (depth p) (Nat.le_refl _)]

theorem Emergency.demand_congr (h : Store.SameWalk s t depth parent) :
    demand p s parent = demand p t parent := by
  rw [demand, demand, h depth (Nat.le_refl _), gap_congr h]

/-- Both ends of the window are blocks with the middle time of three, 144 steps apart. -/
theorem SlidingWindow.demand_congr (h : Store.SameWalk s t depth parent) :
    demand p s parent = demand p t parent := by
  simp only [demand]
  rw [Store.suitable_congr (h.mono (by decide)), h length (by decide)]
  cases hstart : t.back length parent with
  | error e => rfl
  | ok found =>
      cases found with
      | none => rfl
      | some start =>
          have hwalk : Store.SameWalk s t 2 start :=
            Store.SameWalk.drop (m := length) h (by rw [h length (by decide), hstart])
          simp only [Traced.query_ok, Traced.require_some, pure_bind,
            Store.suitable_congr hwalk]

namespace MinimalDifficulty

/-- How far a block is above the start of its interval. -/
def runDepth (p : Params) (parent : Block) : Nat := parent.height.toNat % p.interval.value

/-- A minimal run does not go past the start of an interval. -/
theorem not_inMinimalRun_of_back {start : Block} (hparent : parent.height < .top)
    (hstart : s.back (runDepth p parent) parent = .ok (some start)) :
    (!p.inMinimalRun start) = true := by
  have hheight := Store.height_of_back hparent hstart
  have hstarts : start.height.startsInterval p.interval.value := by
    rw [Height.startsInterval_iff, Nat.eq_sub_of_add_eq hheight, runDepth]
    exact Nat.dvd_sub_mod _
  rw [Params.inMinimalRun, hstarts]
  simp

theorem comingBack_congr {time : Timestamp} (hparent : parent.height < .top)
    (h : Store.SameWalk s t (runDepth p parent) parent) :
    comingBack p s parent time = comingBack p t parent time := by
  rw [comingBack, comingBack,
    Store.nearest_congr h fun _ => not_inMinimalRun_of_back hparent]

end MinimalDifficulty

/-! ## All rules -/

/-- How many steps of the walk from a parent at this height a rule takes, at most. -/
def Rule.lookback (p : Params) (height : Height) : Rule → Nat
  | retarget => p.interval.value - 1
  | emergency => 16
  | slidingWindow => 146
  | returnFromMinimal => height.toNat % p.interval.value
  | minimalAfterGap | stayMinimal | unchecked => 0

theorem Rule.demand_congr {time : Timestamp} {rule : Rule} (hparent : parent.height < .top)
    (h : Store.SameWalk s t (rule.lookback p parent.height) parent) :
    rule.demand p s parent time = rule.demand p t parent time := by
  cases rule with
  | retarget => exact Retarget.demand_congr h
  | emergency => exact Emergency.demand_congr h
  | slidingWindow => exact SlidingWindow.demand_congr h
  | returnFromMinimal => exact MinimalDifficulty.comingBack_congr hparent h
  | minimalAfterGap | stayMinimal | unchecked => rfl

/-- **A rule looks back a bounded number of blocks.**  On stores that agree on so much of the walk
from the parent, it gives the same verdict and the same log.  The search for the last real
difficulty stops after a number of lookups that is at most the height of the parent above the start
of its interval.  Its result is what the last of them has brought, and more of them would not be
made if they were allowed. -/
theorem check_eq_of_sameWalk {header : Header} (hparent : parent.height < .top) :
    (∀ (rule : Rule) (s t : Store),
      Store.SameWalk s t (rule.lookback p parent.height) parent →
        rule.check p s parent header = rule.check p t parent header) ∧
    ∀ s : Store, ∃ n, n ≤ parent.height.toNat % p.interval.value ∧
      s.StopsAt (fun b => !p.inMinimalRun b) parent n ∧
      s.nearest (fun b => !p.inMinimalRun b) parent = s.back n parent ∧
      ∀ most, n < most → History.find s (fun b => !p.inMinimalRun b) most (.start parent) =
        s.nearest (fun b => !p.inMinimalRun b) parent := by
  constructor
  · intro rule s t h
    rw [Rule.check, Rule.check, Rule.demand_congr hparent h]
  · intro s
    obtain ⟨n, hn, hstops⟩ := Store.exists_stopsAt
      fun start => MinimalDifficulty.not_inMinimalRun_of_back (p := p) (s := s) hparent
    exact ⟨n, hn, hstops, Store.nearest_of_stopsAt hstops,
      fun _ => Store.find_eq_nearest hstops⟩

/-- A test network that has always allowed minimal blocks, with intervals of five blocks. -/
def shortTestnet : Params := { lenientTestnet with interval := ⟨5, by decide, by decide⟩ }

/-- The last real block, of height 4, is taken out.  It is below the start of the interval, so a
block of real difficulty at height 9 is told to be minimal all the same. -/
theorem check_eq_of_sameWalk_intervalStart :
    let full := Table.steady 600 minimalRunBits 9
    let pruned := full.erase (.ofWord 5 (by decide))
    let parent := Table.steadyBlock 600 minimalRunBits 8
    let header :=
      { (Table.steadyBlock 600 minimalRunBits 9).toHeader with bits := minimalRunBits 4 }
    (Rule.returnFromMinimal.check shortTestnet full.store parent header).result =
      .error (.violation .returnFromMinimal ⟨9, by decide⟩
        (.mismatch .returned Network.testnet.limitBits (minimalRunBits 4))) ∧
    Rule.returnFromMinimal.check shortTestnet full.store parent header =
      Rule.returnFromMinimal.check shortTestnet pruned.store parent header ∧
    ∃ n, n ≤ 3 ∧ pruned.store.nearest (fun b => !shortTestnet.inMinimalRun b) parent =
      pruned.store.back n parent := by
  intro full pruned parent header
  have hlookback : Rule.returnFromMinimal.lookback shortTestnet parent.height = 3 := by decide
  have hsteps : ∀ k, k ≤ 3 → full.store.back k parent = pruned.store.back k parent := by
    decide +kernel
  have hwalk : Store.SameWalk full.store pruned.store
      (Rule.returnFromMinimal.lookback shortTestnet parent.height) parent := by
    rw [hlookback]
    exact hsteps
  obtain ⟨hcheck, hsearch⟩ :=
    @check_eq_of_sameWalk shortTestnet parent header (by decide)
  obtain ⟨n, hn, -, hnearest, -⟩ := hsearch pruned.store
  exact ⟨by decide +kernel, hcheck .returnFromMinimal _ _ hwalk, n, hlookback ▸ hn, hnearest⟩

end
end DifficultyRules
