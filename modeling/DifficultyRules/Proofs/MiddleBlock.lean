/-
# `DifficultyRules.Proofs.MiddleBlock` — which of three blocks is in the middle

A window ends with the block that has the middle time of three.  Where times are equal, more
than one block has it, and they differ in height and work, so that the window depends on
which of them is taken.  Three exchanges decide that.  They are not a stable sort: of a block
and its parent with one time, and a later grandparent, they take the parent.

    parent's time                        the block that is taken
    is the median                        the parent
    is not, and the outer times differ   the outer block with the median
    is later than two equal outer times  the block itself
    is earlier than those                the grandparent

`Middle` says this by counting, without exchanges, and no two blocks can both be in the
middle in this sense (`Middle.unique`).  So it is all that there is to say of the exchanges
(`middle_medianBlock`), and of the reading that makes them (`suitable_eq_iff`).
-/
import DifficultyRules.Proofs.Median
import DifficultyRules.Proofs.WindowEnds

namespace DifficultyRules

variable {g p b m m' : Block}

/-! ## The middle of three blocks -/

/-- `m` is the block in the middle of a block `b`, its parent `p` and its grandparent `g`.  It has
the median time, and the other facts say which one it is where several have. -/
structure Middle (g p b m : Block) : Prop where
  mem : m ∈ [b, p, g]
  isMedian : IsMedian m.time [b.time, p.time, g.time]
  parent : p.time = m.time → m = p
  outer : p.time ≠ m.time → m = b ∨ m = g
  block : b.time = g.time → b.time < p.time → m = b
  grandparent : b.time = g.time → p.time < b.time → m = g

/-- **There is one block in the middle**, whatever the times. -/
theorem Middle.unique (h : Middle g p b m) (h' : Middle g p b m') : m = m' := by
  have htime : m.time = m'.time := h.isMedian.unique h'.isMedian
  by_cases hp : p.time = m.time
  · rw [h.parent hp, h'.parent (hp.trans htime)]
  · have hm : m = b ∨ m = g := h.outer hp
    have hm' : m' = b ∨ m' = g := h'.outer fun heq => hp (heq.trans htime.symm)
    by_cases houter : b.time = g.time
    · -- the outer times do not say which of the two it is, but the parent's does
      have hpb : p.time ≠ b.time := by
        rcases hm with rfl | rfl
        · exact hp
        · exact houter ▸ hp
      rcases Nat.lt_or_gt_of_ne (mt Timestamp.ext hpb) with hearlier | hlater
      · rw [h.grandparent houter hearlier, h'.grandparent houter hearlier]
      · rw [h.block houter hlater, h'.block houter hlater]
    · rcases hm with rfl | rfl
      · rcases hm' with rfl | rfl
        · rfl
        · exact absurd htime houter
      · rcases hm' with rfl | rfl
        · exact absurd htime.symm houter
        · rfl

/-! ## What the exchanges bring to the middle -/

/-- A time that is the median of three has one of the others on either side. -/
theorem IsMedian.between {x y z : Timestamp} (h : IsMedian y [x, y, z]) :
    z ≤ y ∧ y ≤ x ∨ x ≤ y ∧ y ≤ z := by
  have hearlier := h.earlier
  have hnotLater := h.notLater
  simp only [List.countP_cons, List.countP_nil, List.length_cons, List.length_nil,
    decide_eq_true_eq, Timestamp.le_def, Timestamp.lt_def] at *
  grind

/-- A parent that is later than two blocks of equal times changes places with the block. -/
theorem medianBlock_of_later (houter : b.time = g.time) (h : b.time < p.time) :
    medianBlock g p b = b := by
  have hbg : ¬ b.time < g.time := houter ▸ Nat.lt_irrefl _
  have hpg : ¬ p.time < g.time := houter ▸ Nat.lt_asymm h
  simp only [medianBlock, if_neg hbg, if_neg hpg, if_pos h]

/-- A parent that is earlier changes places with the grandparent. -/
theorem medianBlock_of_earlier (houter : b.time = g.time) (h : p.time < b.time) :
    medianBlock g p b = g := by
  have hbg : ¬ b.time < g.time := houter ▸ Nat.lt_irrefl _
  have hpg : p.time < g.time := houter ▸ h
  simp only [medianBlock, if_neg hbg, if_pos hpg]

/-- **The exchanges bring the middle block to the middle.** -/
theorem middle_medianBlock (g p b : Block) : Middle g p b (medianBlock g p b) := by
  have hmid := isMedian_medianBlock g p b
  refine ⟨?mem, hmid, fun hp => ?parent, fun hp => ?outer, medianBlock_of_later,
    medianBlock_of_earlier⟩
  case mem =>
    rcases medianBlock_cases g p b with h | h | h
    · simp [h]
    · simp [h]
    · simp [h]
  case parent =>
    have hp : IsMedian p.time [b.time, p.time, g.time] := by simpa only [← hp] using hmid
    exact medianBlock_of_between hp.between
  case outer =>
    rcases medianBlock_cases g p b with h | h | h
    · exact .inr h
    · exact absurd (congrArg (·.time) h).symm hp
    · exact .inl h

/-- Where times alternate, the outer ones are equal.  With a later parent the block itself is taken,
and with an earlier one the grandparent. -/
example :
    let block (height : Nat) := Table.steadyBlock 0x80000000 minimalRunBits (Fin.ofNat 256 height)
    medianBlock (block 0) (block 1) (block 2) = block 2 ∧
      medianBlock (block 1) (block 2) (block 3) = block 1 := by
  decide

/-! ## The reading of the three blocks -/

namespace Store

/-- What comes of looking for the block in the middle of `b` and the two before it. -/
inductive Choice (s : Store) (b : Block) : Except QueryError (Option Block) → Prop
  | parentFailed {e : QueryError} : s.parent b = .error e → Choice s b (.error e)
  | noParent : s.parent b = .ok none → Choice s b (.ok none)
  | grandparentFailed {p : Block} {e : QueryError} : s.parent b = .ok (some p) →
      s.parent p = .error e → Choice s b (.error e)
  | noGrandparent {p : Block} : s.parent b = .ok (some p) → s.parent p = .ok none →
      Choice s b (.ok none)
  | found {p g m : Block} : s.parent b = .ok (some p) → s.parent p = .ok (some g) →
      Middle g p b m → Choice s b (.ok (some m))

variable {s : Store} {r : Except QueryError (Option Block)}

theorem choice_suitable (s : Store) (b : Block) : s.Choice b (s.suitable b) := by
  rw [suitable_eq, viaParent]
  cases hp : s.parent b with
  | error e => exact .parentFailed hp
  | ok found =>
      cases found with
      | none => exact .noParent hp
      | some p =>
          dsimp only
          rw [viaParent]
          cases hg : s.parent p with
          | error e => exact .grandparentFailed hp hg
          | ok found =>
              cases found with
              | none => exact .noGrandparent hp hg
              | some g => exact .found hp hg (middle_medianBlock g p b)

theorem Choice.suitable (h : s.Choice b r) : s.suitable b = r := by
  rw [suitable_eq]
  cases h with
  | parentFailed hp => simp only [viaParent, hp]
  | noParent hp => simp only [viaParent, hp]
  | grandparentFailed hp hg => simp only [viaParent, hp, hg]
  | noGrandparent hp hg => simp only [viaParent, hp, hg]
  | found hp hg hm => simp only [viaParent, hp, hg, (middle_medianBlock ..).unique hm]

/-- **Which of three blocks is taken, on every store.**  A lookup that fails is the result, and a
block that is not found leaves none to take.  Otherwise it is the one block that has the median time
of the three: the parent if its time is the median, and else one of the outer blocks, of which the
block itself is taken if both have one time and the parent is later, and the grandparent if the
parent is earlier. -/
theorem suitable_eq_iff (s : Store) (b : Block) (r : Except QueryError (Option Block)) :
    s.suitable b = r ↔ s.Choice b r := by
  constructor
  · rintro rfl
    exact choice_suitable s b
  · exact Choice.suitable

end Store
end DifficultyRules
