/-
# `DifficultyRules.Proofs.Walk` — all that is read of a store is one walk

The rules read a store in several ways: the ancestor some steps back, the block
with the middle time of three, the times of eleven blocks, the nearest block
with a property.  All of them follow the parents of one block, so all of them
are functions of the walk `s.back 0 b`, `s.back 1 b`, and so on.

Two forms of that are proved here.

* `Store.viaParent` is the one step that the readings share.  A reading that
  looks for a single block is a cascade of such steps (`back_succ`,
  `suitable_eq`, `find_start_add_two`), so a fact about the step is a fact
  about each of them.
* `Store.SameWalk s t n b` says that two stores agree for `n` steps from `b`,
  and the congruence lemmas say how many steps a reading takes.  A window of
  `n + 1` blocks takes `n` steps, and both median times of the emergency rule
  take its depth of sixteen together (`Emergency.gap_congr`).

A window silently shrinks where history ends, so that it is defined says nothing
about its length.  What does is a block found at the far end: `back_split` finds
every block in between, and `Emergency.gap_of_depth` is what the guard of the
emergency rule buys.  Where genesis itself is found, the walk has exactly as many
steps as the height of its block (`Complete.back_eq_none_iff`).
-/
import DifficultyRules.Emergency
import DifficultyRules.SlidingWindow

namespace DifficultyRules
namespace Store

variable {s t : Store} {b c p : Block} {n : Nat}

/-! ## One step -/

theorem get_of_parent (h : s.parent b = .ok (some p)) : s.get b.parent = .ok (some p) := by
  rw [parent] at h
  split at h
  · cases h
  · split at h
    · cases h
    · cases h
    · next hget =>
        split at h
        · cases h
          exact hget
        · cases h

/-- What `k` makes of the parent of `b`, or the lookup's own answer if it brings no block. -/
def viaParent (s : Store) (b : Block) (k : Block → Except QueryError (Option Block)) :
    Except QueryError (Option Block) :=
  match s.parent b with
  | .error e => .error e
  | .ok none => .ok none
  | .ok (some p) => k p

theorem viaParent_of_some {k : Block → Except QueryError (Option Block)}
    (h : s.parent b = .ok (some p)) : s.viaParent b k = k p := by
  simp only [viaParent, h]

/-- A step that ends with a block has come by the parent. -/
theorem viaParent_eq_some {k : Block → Except QueryError (Option Block)}
    (h : s.viaParent b k = .ok (some c)) :
    ∃ p, s.parent b = .ok (some p) ∧ k p = .ok (some c) := by
  rw [viaParent] at h
  split at h
  · cases h
  · cases h
  · next p hp => exact ⟨p, hp, h⟩

theorem back_succ (s : Store) (n : Nat) (b : Block) :
    s.back (n + 1) b = s.viaParent b (s.back n) := rfl

theorem back_one (s : Store) (b : Block) : s.back 1 b = s.parent b := by
  rw [back_succ]
  rw [viaParent]
  split
  · next h => exact h.symm
  · next h => exact h.symm
  · next h => exact h.symm

theorem suitable_eq (s : Store) (b : Block) :
    s.suitable b = s.viaParent b fun p => s.viaParent p fun g =>
      .ok (some (medianBlock g p b)) := by
  simp only [suitable, viaParent]
  cases s.parent b with
  | error e => rfl
  | ok found =>
      cases found with
      | none => rfl
      | some p =>
          simp only [bind, Except.bind]
          cases s.parent p with
          | error e => rfl
          | ok found => cases found <;> rfl

theorem find_start_one (s : Store) (q : Block → Bool) (b : Block) :
    History.find s q 1 (.start b) = .ok (if q b then some b else none) := by
  by_cases hq : q b <;> simp [History.find, History.next, hq]

theorem find_start_add_two (s : Store) (q : Block → Bool) (n : Nat) (b : Block) :
    History.find s q (n + 2) (.start b) =
      if q b then .ok (some b)
      else s.viaParent b fun p => History.find s q (n + 1) (.start p) := by
  simp only [History.find, History.next, viaParent]
  cases s.parent b with
  | error e => rfl
  | ok found => cases found <;> rfl

/-! ## The walk -/

/-- A walk goes on from where it has come. -/
theorem back_add_of_some {m : Nat} (h : s.back m b = .ok (some c)) (n : Nat) :
    s.back (m + n) b = s.back n c := by
  rw [back_add, h]

/-- A walk that has ended does not go on. -/
theorem back_add_of_not_found {m : Nat} (h : ∀ c, s.back m b ≠ .ok (some c)) (n : Nat) :
    s.back (m + n) b = s.back m b := by
  rw [back_add]
  split
  · next c hc => exact absurd hc (h c)
  · rfl

/-- The blocks before a block of the walk are found as well, and the walk goes on from there. -/
theorem back_split (h : s.back n b = .ok (some c)) {k : Nat} (hk : k ≤ n) :
    ∃ d, s.back k b = .ok (some d) ∧ s.back (n - k) d = .ok (some c) := by
  have hn : s.back (k + (n - k)) b = .ok (some c) := by rwa [Nat.add_sub_cancel' hk]
  rw [back_add] at hn
  split at hn
  · next d hd => exact ⟨d, hd, hn⟩
  · next hnone => exact absurd hn (hnone c)

/-- A walk that comes to a block has taken its last step from a child of it. -/
theorem back_succ_eq_some (h : s.back (n + 1) b = .ok (some c)) :
    ∃ d, s.back n b = .ok (some d) ∧ s.parent d = .ok (some c) := by
  obtain ⟨d, hd, hc⟩ := back_split h (Nat.le_succ n)
  rw [Nat.add_sub_cancel_left, back_one] at hc
  exact ⟨d, hd, hc⟩

/-- A walk stays where it is or comes to a stored block. -/
theorem eq_or_get_of_back (h : s.back n b = .ok (some c)) :
    c = b ∨ ∃ id, s.get id = .ok (some c) := by
  induction n generalizing b with
  | zero => exact .inl (Option.some.inj (Except.ok.inj h)).symm
  | succ n ih =>
      obtain ⟨p, hp, hc⟩ := viaParent_eq_some h
      rcases ih hc with rfl | hget
      · exact .inr ⟨b.parent, get_of_parent hp⟩
      · exact .inr hget

/-- Below the largest height, a walk goes down by one height with each step. -/
theorem height_of_back (hb : b.height < .top) (h : s.back n b = .ok (some c)) :
    c.height.toNat + n = b.height.toNat := by
  induction n generalizing b with
  | zero =>
      cases h
      rfl
  | succ n ih =>
      obtain ⟨p, hp, hc⟩ := viaParent_eq_some h
      have hstep : p.height.toNat + 1 = b.height.toNat :=
        (Height.next_eq_iff hb).1 (next_height_of_parent hp)
      have hlower : p.height < .top := Nat.lt_trans (Nat.lt_of_succ_le (Nat.le_of_eq hstep)) hb
      have := ih hlower hc
      omega

/-- The two stores agree on the walk from `b` for `n` steps. -/
def SameWalk (s t : Store) (n : Nat) (b : Block) : Prop :=
  ∀ k, k ≤ n → s.back k b = t.back k b

theorem SameWalk.mono {m : Nat} (h : SameWalk s t n b) (hm : m ≤ n) : SameWalk s t m b :=
  fun k hk => h k (Nat.le_trans hk hm)

/-- Stores that agree from `b` agree from every block of the walk, for as long as is left. -/
theorem SameWalk.drop {m : Nat} (h : SameWalk s t (m + n) b) (hc : s.back m b = .ok (some c)) :
    SameWalk s t n c := by
  intro k hk
  have ht : t.back m b = .ok (some c) := by rw [← h m (Nat.le_add_right m n), hc]
  rw [← back_add_of_some hc, ← back_add_of_some ht]
  exact h (m + k) (Nat.add_le_add_left hk m)

theorem SameWalk.parent (h : SameWalk s t (n + 1) b) : s.parent b = t.parent b := by
  rw [← back_one, ← back_one]
  exact h 1 (Nat.le_add_left 1 n)

/-! ## Complete histories -/

/-- The walk from `b` comes down to genesis. -/
def Complete (s : Store) (b : Block) : Prop :=
  ∃ n c, s.back n b = .ok (some c) ∧ c.height.isGenesis

/-- Genesis is as many steps down as the height of the block says. -/
theorem Complete.back_height (h : s.Complete b) (hb : b.height < .top) :
    ∃ c, s.back b.height.toNat b = .ok (some c) ∧ c.height.isGenesis := by
  obtain ⟨n, c, hc, hgenesis⟩ := h
  have hheight := height_of_back hb hc
  have hzero : c.height.toNat = 0 := of_decide_eq_true hgenesis
  have hn : n = b.height.toNat := by omega
  exact ⟨c, by rw [← hn, hc], hgenesis⟩

theorem Complete.back_of_le (h : s.Complete b) (hb : b.height < .top)
    (hn : n ≤ b.height.toNat) : ∃ c, s.back n b = .ok (some c) := by
  obtain ⟨c, hc, -⟩ := h.back_height hb
  obtain ⟨d, hd, -⟩ := back_split hc hn
  exact ⟨d, hd⟩

theorem Complete.back_of_lt (h : s.Complete b) (hb : b.height < .top)
    (hn : b.height.toNat < n) : s.back n b = .ok none := by
  obtain ⟨c, hc, hgenesis⟩ := h.back_height hb
  obtain ⟨k, rfl⟩ := Nat.exists_eq_add_of_lt hn
  rw [Nat.add_assoc, back_add_of_some hc, back_succ, viaParent, parent_genesis hgenesis]

theorem Complete.back_ne_error (h : s.Complete b) (hb : b.height < .top) (e : QueryError) :
    s.back n b ≠ .error e := by
  intro herror
  rcases Nat.lt_or_ge b.height.toNat n with hn | hn
  · rw [h.back_of_lt hb hn] at herror
    cases herror
  · obtain ⟨c, hc⟩ := h.back_of_le hb hn
    rw [hc] at herror
    cases herror

/-- Only below genesis is nothing found. -/
theorem Complete.back_eq_none_iff (h : s.Complete b) (hb : b.height < .top) :
    s.back n b = .ok none ↔ b.height.toNat < n := by
  constructor
  · intro hnone
    refine Nat.lt_of_not_le fun hn => ?_
    obtain ⟨c, hc⟩ := h.back_of_le hb hn
    rw [hnone] at hc
    cases hc
  · exact h.back_of_lt hb

/-! ## Windows -/

theorem window_add_two (s : Store) (n : Nat) (b : Block) :
    s.window (n + 2) b =
      match s.parent b with
      | .error e => .error e
      | .ok none => .ok [b]
      | .ok (some p) => (s.window (n + 1) p).map (b :: ·) := by
  simp only [window, History.collect, History.next]
  cases s.parent b with
  | error e => rfl
  | ok found =>
      cases found with
      | none => rfl
      | some p =>
          simp only
          cases History.collect s n (.after p) with
          | error e => rfl
          | ok bs => rfl

/-- A window of `n + 1` blocks takes `n` steps. -/
theorem window_congr (h : SameWalk s t n b) : s.window (n + 1) b = t.window (n + 1) b := by
  induction n generalizing b with
  | zero => rfl
  | succ n ih =>
      rw [window_add_two, window_add_two, ← h.parent]
      split
      · rfl
      · rfl
      · next p hp =>
          have hb : s.back 1 b = .ok (some p) := by rw [back_one, hp]
          rw [ih (SameWalk.drop (by rwa [Nat.add_comm]) hb)]

/-- A window that history fills is read without an error. -/
theorem window_of_back (h : s.back n b = .ok (some c)) : ∃ bs, s.window (n + 1) b = .ok bs := by
  induction n generalizing b with
  | zero => exact ⟨[b], rfl⟩
  | succ n ih =>
      obtain ⟨p, hp, hc⟩ := viaParent_eq_some h
      obtain ⟨bs, hbs⟩ := ih hc
      refine ⟨b :: bs, ?_⟩
      simp only [window_add_two, hp, hbs, Except.map]

theorem medianTime_congr (h : SameWalk s t 10 b) : s.medianTime b = t.medianTime b := by
  simp only [medianTime]
  rw [show medianSpan = 10 + 1 from rfl, window_congr h]

theorem medianTime_of_back (h : s.back 10 b = .ok (some c)) :
    ∃ time, s.medianTime b = .ok time := by
  obtain ⟨bs, hbs⟩ := window_of_back h
  exact ⟨_, by rw [medianTime, show medianSpan = 10 + 1 from rfl, hbs]⟩

/-! ## The nearest block with a property -/

/-- A search that succeeds has come to the first block of the walk that it was looking for. -/
theorem find_eq_some {q : Block → Bool} {most : Nat}
    (h : History.find s q most (.start b) = .ok (some c)) :
    ∃ n, s.back n b = .ok (some c) ∧ q c ∧
      ∀ k d, k < n → s.back k b = .ok (some d) → q d = false := by
  induction most generalizing b with
  | zero => cases h
  | succ most ih =>
      by_cases hq : q b
      · have hc : b = c := by simpa [History.find, History.next, hq] using h
        subst hc
        exact ⟨0, rfl, hq, fun k d hk => absurd hk (Nat.not_lt_zero k)⟩
      · cases most with
        | zero => simp [find_start_one, hq] at h
        | succ most =>
            rw [find_start_add_two, if_neg hq] at h
            obtain ⟨p, hp, hfind⟩ := viaParent_eq_some h
            obtain ⟨n, hn, hc, hbefore⟩ := ih hfind
            refine ⟨n + 1, by rw [back_succ, viaParent_of_some hp, hn], hc, ?_⟩
            intro k d hk hd
            cases k with
            | zero =>
                cases hd
                exact Bool.eq_false_iff.2 hq
            | succ k =>
                rw [back_succ, viaParent_of_some hp] at hd
                exact hbefore k d (Nat.lt_of_succ_lt_succ hk) hd

theorem nearest_eq_some {q : Block → Bool} (h : s.nearest q b = .ok (some c)) :
    ∃ n, s.back n b = .ok (some c) ∧ q c ∧
      ∀ k d, k < n → s.back k b = .ok (some d) → q d = false :=
  find_eq_some h

end Store

/-! ## The median times of the emergency rule -/

namespace Emergency

variable {s t : Store} {parent c : Block}

/-- The later median time takes ten steps, the earlier one ten from six steps back. -/
theorem gap_congr (h : Store.SameWalk s t depth parent) : gap s parent = gap t parent := by
  simp only [gap]
  rw [← h reach (by decide), Store.medianTime_congr (h.mono (by decide))]
  cases hr : s.back reach parent with
  | error e => rfl
  | ok found =>
      cases found with
      | none => rfl
      | some earlier =>
          have hwalk : Store.SameWalk s t 10 earlier := Store.SameWalk.drop (m := reach) h hr
          simp only [Traced.query_ok, Traced.require_some, pure_bind]
          rw [Store.medianTime_congr hwalk]

/-- With sixteen blocks below the parent, the rule measures a gap. -/
theorem gap_of_depth (h : s.back depth parent = .ok (some c)) :
    ∃ g, (gap s parent).result = .ok g := by
  obtain ⟨earlier, hr, hfar⟩ := Store.back_split h (k := reach) (by decide)
  obtain ⟨_, hten, -⟩ := Store.back_split h (k := 10) (by decide)
  obtain ⟨later, hlater⟩ := Store.medianTime_of_back hten
  obtain ⟨early, hearly⟩ := Store.medianTime_of_back hfar
  refine ⟨later.since early, ?_⟩
  simp only [gap, hr, hlater, hearly, Traced.query_ok, Traced.require_some, pure_bind]
  rfl

end Emergency

end DifficultyRules
