/-
# `DifficultyRules.Proofs.Ancestors` — the ancestor at a height

An ancestor can be asked for by its height.  The store is then walked as many steps as
the heights differ, and what comes back is the block after that many steps: its own
height is not looked at.  That it is the height asked for follows from the steps.  A
stored height is checked only against that of the child, and the check is made with a
successor that stops at the largest height; below that height a step goes down by exactly
one (`height_of_back`), so the walk is at the right height when it is over.

The same makes ancestors independent of the path.

    b ──────── high ──────── low        found at `high`: the rest of the walk is
               (c)                      that from `c`
    b ───× high ──────── low            not found on the way to `high`: the walk
                                        stays where it ended, or failed

`ancestor_at_height` puts this together.  With the ancestor at a block's own height,
which is the block, and the one below, which is its parent, it leaves nothing open.
-/
import Mathlib.Control.Monad.Basic
import DifficultyRules.Proofs.SteadyTable
import DifficultyRules.Proofs.Walk

namespace DifficultyRules
namespace Store

variable {s : Store} {a b c : Block} {height low high : Height}

/-! ## Ancestors and walks -/

theorem ancestor_of_le (h : height ≤ b.height) :
    s.ancestor b height = s.back (b.height.toNat - height.toNat) b := if_pos h

theorem ancestor_of_lt (h : b.height < height) :
    s.ancestor b height = .error (.ancestorHeight b.height height) := if_neg (Nat.not_le.2 h)

theorem ancestor_self (s : Store) (b : Block) : s.ancestor b b.height = .ok (some b) := by
  rw [ancestor_of_le (Nat.le_refl b.height.toNat), Nat.sub_self, back_zero]

theorem ancestor_of_next (hb : b.height < .top) (h : height.next = b.height) :
    s.ancestor b height = s.parent b := by
  have hstep : height.toNat + 1 = b.height.toNat := (Height.next_eq_iff hb).1 h
  have hle : height ≤ b.height := Nat.le_of_lt (Nat.lt_of_succ_le (Nat.le_of_eq hstep))
  rw [ancestor_of_le hle, ← hstep, Nat.add_sub_cancel_left, back_one]

/-- The block that is found has the height that was asked for. -/
theorem height_of_ancestor (hb : b.height < .top) (h : s.ancestor b height = .ok (some a)) :
    a.height = height := by
  by_cases hle : height ≤ b.height
  · rw [ancestor_of_le hle] at h
    have hsteps := height_of_back hb h
    have : height.toNat ≤ b.height.toNat := hle
    exact Height.ext (by omega)
  · rw [ancestor_of_lt (Height.not_le.1 hle)] at h
    cases h

/-! ## Two heights on one walk -/

/-- The steps down to `low` are those down to `high` and then the rest. -/
theorem ancestor_split (hlow : low ≤ high) (hhigh : high ≤ b.height) :
    s.ancestor b low =
      s.back ((b.height.toNat - high.toNat) + (high.toNat - low.toNat)) b := by
  have hlow' : low.toNat ≤ high.toNat := hlow
  have hhigh' : high.toNat ≤ b.height.toNat := hhigh
  rw [ancestor_of_le (Nat.le_trans hlow hhigh)]
  congr 1
  omega

/-- Below an ancestor, its ancestors are those of the block. -/
theorem ancestor_of_found (hb : b.height < .top) (hlow : low ≤ high) (hhigh : high ≤ b.height)
    (hc : s.ancestor b high = .ok (some c)) : s.ancestor b low = s.ancestor c low := by
  have hheight : c.height = high := height_of_ancestor hb hc
  have hle : low ≤ c.height := by
    rw [hheight]
    exact hlow
  rw [ancestor_of_le hhigh] at hc
  rw [ancestor_split hlow hhigh, back_add_of_some hc, ancestor_of_le hle, hheight]

/-- Where no ancestor is found, none is found below, and for the same reason. -/
theorem ancestor_of_not_found (hlow : low ≤ high) (hhigh : high ≤ b.height)
    (hnone : ∀ c, s.ancestor b high ≠ .ok (some c)) : s.ancestor b low = s.ancestor b high := by
  rw [ancestor_of_le hhigh] at hnone ⊢
  rw [ancestor_split hlow hhigh, back_add_of_not_found hnone]

/-- **The ancestor at a height has that height, whatever the store holds, and does not depend on the
path.**  The ancestors of an ancestor are those of the block, and a walk that has ended without a
block, or with an error, is answered in the same way at every height below.  Heights above that of
the block are refused. -/
theorem ancestor_at_height (s : Store) {b : Block} (hb : b.height < .top) {low high : Height}
    (hlow : low ≤ high) (hhigh : high ≤ b.height) :
    (∀ a, s.ancestor b low = .ok (some a) → a.height = low) ∧
    (∀ c, s.ancestor b high = .ok (some c) → s.ancestor b low = s.ancestor c low) ∧
    ((∀ c, s.ancestor b high ≠ .ok (some c)) → s.ancestor b low = s.ancestor b high) ∧
    s.ancestor b b.height = .ok (some b) ∧
    (∀ below, below.next = b.height → s.ancestor b below = s.parent b) ∧
    ∀ above, b.height < above → s.ancestor b above = .error (.ancestorHeight b.height above) :=
  ⟨fun _ => height_of_ancestor hb, fun _ => ancestor_of_found hb hlow hhigh,
    ancestor_of_not_found hlow hhigh, ancestor_self s b, fun _ => ancestor_of_next hb,
    fun _ => ancestor_of_lt⟩

end Store

/-- Twelve blocks, of which the one after four has been stored at a height of its own. -/
def misplaced : Table :=
  let block := Table.steadyBlock 600 minimalRunBits
  (Table.steady 600 minimalRunBits 12).insert { block 4 with height := ⟨77, by decide⟩ }

/-- The walk to height 8 is sound, and the one to height 3 fails where it passes height 4. -/
theorem Store.ancestor_at_height_misplaced :
    let s := misplaced.store
    let block := Table.steadyBlock 600 minimalRunBits
    (block 11).height < .top ∧
      s.ancestor (block 11) ⟨8, by decide⟩ = .ok (some (block 8)) ∧
      s.ancestor (block 11) ⟨3, by decide⟩ = s.ancestor (block 8) ⟨3, by decide⟩ ∧
      s.ancestor (block 11) ⟨3, by decide⟩ =
        .error (.parentHeight (block 5).id ⟨5, by decide⟩ ⟨77, by decide⟩) ∧
      s.ancestor (block 11) ⟨12, by decide⟩ =
        .error (.ancestorHeight ⟨11, by decide⟩ ⟨12, by decide⟩) := by
  intro s block
  have hb : (block 11).height < .top := by decide
  have hfound : s.ancestor (block 11) ⟨8, by decide⟩ = .ok (some (block 8)) := by decide +kernel
  have hlost : s.ancestor (block 11) ⟨4, by decide⟩ =
      .error (.parentHeight (block 5).id ⟨5, by decide⟩ ⟨77, by decide⟩) := by decide +kernel
  obtain ⟨-, hpath, -, -, -, habove⟩ :=
    @ancestor_at_height s _ hb ⟨3, by decide⟩ ⟨8, by decide⟩ (by decide) (by decide)
  obtain ⟨-, -, hend, -⟩ :=
    @ancestor_at_height s _ hb ⟨3, by decide⟩ ⟨4, by decide⟩ (by decide) (by decide)
  refine ⟨hb, hfound, hpath _ hfound, ?_, habove _ (by decide)⟩
  rw [hend (by simp [hlost]), hlost]

end DifficultyRules
