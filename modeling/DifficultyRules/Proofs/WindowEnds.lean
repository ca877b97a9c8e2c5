/-
# `DifficultyRules.Proofs.WindowEnds` — the blocks that a window is measured between

The sliding window reads the parent, the ancestor 144 blocks back, and the two
blocks before each of them.  Of either group it keeps one block, the one with the
middle time.  Which one depends on the times, and nothing is known about these;
so all that can be said of the ends of a window is where they lie.

    last     at most 2 blocks back from the parent
    first    between 144 and 146 blocks back

This is `Ends.walk`, and it is enough for everything that does not depend on the
times.  The groups do not overlap, so the first block is always below the last
(`Ends.height_lt`).

The three readings together take 146 steps.  They are made one after the other,
and each fails where the walk does.  So the rule ends as the walk of 146 steps
ends, if that finds no block (`result_demand_of_not_found`), and otherwise finds
both ends (`exists_ends`).
-/
import DifficultyRules.Proofs.Acceptance

namespace DifficultyRules

/-! ## The block with the middle time -/

theorem medianBlock_cases (g p b : Block) :
    medianBlock g p b = g ∨ medianBlock g p b = p ∨ medianBlock g p b = b := by
  by_cases hbg : b.time < g.time
  · by_cases hpb : p.time < b.time
    · simp only [medianBlock, if_pos hbg, if_pos hpb]
      split
      · exact .inl rfl
      · exact .inr (.inr rfl)
    · simp only [medianBlock, if_pos hbg, if_neg hpb]
      split
      · exact .inl rfl
      · exact .inr (.inl rfl)
  · by_cases hpg : p.time < g.time
    · exact .inl (by simp only [medianBlock, if_neg hbg, if_pos hpg])
    · simp only [medianBlock, if_neg hbg, if_neg hpg]
      split
      · exact .inr (.inr rfl)
      · exact .inr (.inl rfl)

/-- A parent with a time between those of the outer blocks is kept. -/
theorem medianBlock_of_between {g p b : Block}
    (h : g.time ≤ p.time ∧ p.time ≤ b.time ∨ b.time ≤ p.time ∧ p.time ≤ g.time) :
    medianBlock g p b = p := by
  simp only [Timestamp.le_def] at h
  by_cases hbg : b.time < g.time
  · have hlt : b.time.seconds < g.time.seconds := hbg
    have hpb : ¬ p.time < b.time := Nat.not_lt.2 (by omega)
    have hgp : ¬ g.time < p.time := Nat.not_lt.2 (by omega)
    simp only [medianBlock, if_pos hbg, if_neg hpb, if_neg hgp]
  · have hle : g.time.seconds ≤ b.time.seconds := Nat.le_of_not_lt hbg
    have hpg : ¬ p.time < g.time := Nat.not_lt.2 (by omega)
    have hbp : ¬ b.time < p.time := Nat.not_lt.2 (by omega)
    simp only [medianBlock, if_neg hbg, if_neg hpg, if_neg hbp]

namespace Store

variable {s : Store} {b c g : Block}

/-- With two blocks before it, a block has one with the middle time. -/
theorem suitable_of_back (h : s.back 2 b = .ok (some g)) :
    ∃ p, s.back 1 b = .ok (some p) ∧ s.suitable b = .ok (some (medianBlock g p b)) := by
  obtain ⟨p, hp, hg⟩ := viaParent_eq_some h
  rw [back_one] at hg
  refine ⟨p, by rw [back_one, hp], ?_⟩
  rw [suitable_eq, viaParent_of_some hp, viaParent_of_some hg]

/-- Without them, it ends as the walk to them does. -/
theorem suitable_of_not_found (h : ∀ g, s.back 2 b ≠ .ok (some g)) :
    s.suitable b = s.back 2 b := by
  rw [suitable_eq, back_succ] at *
  simp only [viaParent] at *
  cases hp : s.parent b with
  | error e => rfl
  | ok found =>
      cases found with
      | none => rfl
      | some p =>
          simp only [hp, back_one] at h ⊢
          cases hg : s.parent p with
          | error e => rfl
          | ok found =>
              cases found with
              | none => rfl
              | some g => exact absurd hg (h g)

/-- The block with the middle time is on the walk. -/
theorem suitable_eq_some (h : s.suitable b = .ok (some c)) :
    (∃ g, s.back 2 b = .ok (some g)) ∧ ∃ k, k ≤ 2 ∧ s.back k b = .ok (some c) := by
  have hfound : ∃ g, s.back 2 b = .ok (some g) := by
    by_contra hnone
    have hnone : ∀ g, s.back 2 b ≠ .ok (some g) := fun g hg => hnone ⟨g, hg⟩
    rw [suitable_of_not_found hnone] at h
    exact hnone c h
  refine ⟨hfound, ?_⟩
  obtain ⟨g, hg⟩ := hfound
  obtain ⟨p, hp, hsuitable⟩ := suitable_of_back hg
  rw [h] at hsuitable
  cases hsuitable
  rcases medianBlock_cases g p b with hc | hc | hc
  · exact ⟨2, Nat.le_refl 2, by rw [hc, hg]⟩
  · exact ⟨1, by decide, by rw [hc, hp]⟩
  · exact ⟨0, by decide, by rw [hc, back_zero]⟩

end Store

/-! ## The ends of a window -/

namespace SlidingWindow

/-- The window for the block after `parent` is measured from `first` to `last`. -/
structure Ends (s : Store) (parent first last : Block) : Prop where
  suitable_parent : s.suitable parent = .ok (some last)
  suitable_start : ∃ start, s.back length parent = .ok (some start) ∧
    s.suitable start = .ok (some first)

variable {s : Store} {parent first last far : Block}

/-- The ends lie in two groups of three blocks. -/
theorem Ends.walk (h : Ends s parent first last) :
    ∃ i k, i ≤ 2 ∧ 142 ≤ k ∧ i + k ≤ depth ∧ s.back i parent = .ok (some last) ∧
      s.back (i + k) parent = .ok (some first) := by
  obtain ⟨-, i, hi, hlast⟩ := Store.suitable_eq_some h.suitable_parent
  obtain ⟨start, hstart, hfirst⟩ := h.suitable_start
  obtain ⟨-, j, hj, hfirst⟩ := Store.suitable_eq_some hfirst
  rw [← Store.back_add_of_some hstart] at hfirst
  have hsum : i + (length - i + j) = length + j := by
    rw [length]
    omega
  refine ⟨i, length - i + j, hi, ?_, ?_, hlast, by rw [hsum, hfirst]⟩
  · rw [length]
    omega
  · rw [hsum, depth]
    omega

/-- The first block of a window is below the last. -/
theorem Ends.height_lt (h : Ends s parent first last) (hparent : parent.height < .top) :
    first.height < last.height := by
  obtain ⟨i, k, hi, hk, -, hlast, hfirst⟩ := h.walk
  have hlast := Store.height_of_back hparent hlast
  have hfirst := Store.height_of_back hparent hfirst
  show first.height.toNat < last.height.toNat
  omega

/-- Once its ends are found, what the rule demands is the target of the window. -/
theorem Ends.result_demand (h : Ends s parent first last) (p : Params) :
    (demand p s parent).result = (p.windowTarget first last).map (.target · .scheduled) := by
  obtain ⟨start, hstart, hfirst⟩ := h.suitable_start
  simp only [SlidingWindow.result_demand, h.suitable_parent, hstart, hfirst, requireBlock]

/-- Once its target is known, the window accepts the bits that this is rounded to. -/
theorem Ends.check_eq_ok_iff {p : Params} {t : Target} {header : Header}
    (h : Ends s parent first last) (ht : p.windowTarget first last = .ok t) :
    (Rule.slidingWindow.check p s parent header).result = .ok () ↔
      header.bits.toTarget = .ok t.normalized := by
  refine Rule.check_eq_ok_iff_of_target (m := .scheduled) ?_
  rw [Rule.demand, h.result_demand p, ht, Except.map]

/-- With 146 blocks below the parent, a window has its ends. -/
theorem exists_ends (h : s.back depth parent = .ok (some far)) :
    ∃ first last, Ends s parent first last := by
  obtain ⟨_, htwo, -⟩ := Store.back_split h (k := 2) (by decide)
  obtain ⟨start, hstart, hfar⟩ := Store.back_split h (k := length) (by decide)
  obtain ⟨_, -, hlast⟩ := Store.suitable_of_back htwo
  obtain ⟨_, -, hfirst⟩ := Store.suitable_of_back hfar
  exact ⟨_, _, hlast, start, hstart, hfirst⟩

/-- Without them, the rule ends as the walk to the lowest of them does. -/
theorem result_demand_of_not_found (h : ∀ far, s.back depth parent ≠ .ok (some far))
    (p : Params) (k : Block → Except CheckError Demand) :
    (demand p s parent).result =
      requireBlock (.shortHistory .slidingWindow parent.height.next depth) (s.back depth parent)
        k := by
  rw [SlidingWindow.result_demand]
  -- the first of the three readings that finds no block ends the rule, and the walk ends there too
  by_cases htwo : ∃ g, s.back 2 parent = .ok (some g)
  · obtain ⟨g, hg⟩ := htwo
    obtain ⟨_, -, hlast⟩ := Store.suitable_of_back hg
    rw [hlast, requireBlock_some]
    by_cases hlength : ∃ start, s.back length parent = .ok (some start)
    · obtain ⟨start, hstart⟩ := hlength
      have hfar : s.back depth parent = s.back 2 start := Store.back_add_of_some hstart 2
      rw [hfar] at h ⊢
      rw [hstart, requireBlock_some, Store.suitable_of_not_found h]
      exact requireBlock_of_not_found _ h _ _
    · have hlength : ∀ start, s.back length parent ≠ .ok (some start) :=
        fun start hstart => hlength ⟨start, hstart⟩
      have hfar : s.back depth parent = s.back length parent :=
        Store.back_add_of_not_found hlength 2
      rw [hfar]
      exact requireBlock_of_not_found _ hlength _ _
  · have htwo : ∀ g, s.back 2 parent ≠ .ok (some g) := fun g hg => htwo ⟨g, hg⟩
    have hfar : s.back depth parent = s.back 2 parent :=
      Store.back_add_of_not_found htwo length
    rw [hfar, Store.suitable_of_not_found htwo]
    exact requireBlock_of_not_found _ htwo _ _

end SlidingWindow
end DifficultyRules
