/-
# `DifficultyRules.Proofs.WithinLimit` — demands that respect the limit

On the main network one of four rules is selected on a parent
(`Params.ruleAt_mainnet`).  Two of them compute a target, and cap it at the
limit.  The rule at the limit demands what the parent has.  The emergency rule
does one or the other, but only when it finds the history that it needs; without
it, the rule lets everything pass.

So a demand that is made at all is one of two kinds, a target within the limit or
the parent's own difficulty (`Demand.WithinLimit`).  On a parent within the limit
it is therefore a demand for bits within the limit (`WithinLimit.expected`), and
whatever meets it is within the limit too.
-/
import DifficultyRules.Proofs.Acceptance
import DifficultyRules.Proofs.WindowTarget

namespace DifficultyRules

/-! ## Bits within the limit -/

/-- The bits stand for a target that is not above the limit. -/
def Compact.WithinLimit (limit : Target) (c : Compact) : Prop :=
  ∃ t, c.toTarget = .ok t ∧ t ≤ limit

namespace Compact

variable {limit t : Target} {a b c : Compact}

theorem withinLimit_iff :
    c.WithinLimit limit ↔ c.toTarget.toOption.any (· ≤ limit) = true := by
  rw [WithinLimit, Option.any_eq_true]
  cases c.toTarget with
  | error e => exact iff_of_false (fun ⟨_, h, _⟩ => nomatch h) (fun ⟨_, h, _⟩ => nomatch h)
  | ok t => simp [Except.toOption]

instance (limit : Target) (c : Compact) : Decidable (c.WithinLimit limit) :=
  decidable_of_iff _ withinLimit_iff.symm

theorem withinLimit_of_encodes (h : c.encodes limit) : c.WithinLimit limit :=
  ⟨limit.normalized, encodes_iff.1 h, limit.normalized_le⟩

theorem withinLimit_ofTarget (h : t ≤ limit) : (ofTarget t).WithinLimit limit :=
  ⟨t.normalized, toTarget_ofTarget t, Nat.le_trans t.normalized_le h⟩

theorem WithinLimit.of_sameDifficulty (hb : b.WithinLimit limit) (h : a.sameDifficulty b) :
    a.WithinLimit limit := by
  obtain ⟨t, ha, ht⟩ := sameDifficulty_iff.1 h
  obtain ⟨t', hb', hle⟩ := hb
  rw [ht] at hb'
  cases hb'
  exact ⟨t, ha, hle⟩

theorem encodes_of_sameDifficulty (hb : b.encodes limit) (h : a.sameDifficulty b) :
    a.encodes limit := by
  obtain ⟨t, ha, ht⟩ := sameDifficulty_iff.1 h
  rw [encodes_iff, ht] at hb
  cases hb
  exact encodes_iff.2 ha

end Compact

/-! ## Demands within the limit -/

/-- The demand is for a target within the limit, or for the difficulty of the parent. -/
inductive Demand.WithinLimit (p : Params) (parent : Block) : Demand → Prop
  | target {t : Target} (otherwise : Mismatch) : t ≤ p.limit →
      WithinLimit p parent (.target t otherwise)
  | sameAs (otherwise : Mismatch) : WithinLimit p parent (.sameAs parent.bits otherwise)

variable {p : Params} {s : Store} {parent far : Block} {d : Demand}

/-- On a parent within the limit, bits within the limit are expected. -/
theorem Demand.WithinLimit.expected (h : d.WithinLimit p parent)
    (hparent : parent.bits.WithinLimit p.limit) :
    ∃ expected, d.expected? = some expected ∧ expected.WithinLimit p.limit := by
  cases h with
  | target otherwise ht => exact ⟨_, rfl, Compact.withinLimit_ofTarget ht⟩
  | sameAs otherwise => exact ⟨_, rfl, hparent⟩

theorem Retarget.withinLimit_of_demand (h : (Retarget.demand p s parent).result = .ok d) :
    d.WithinLimit p parent := by
  rw [result_demand] at h
  obtain ⟨first, -, h⟩ := requireBlock_eq_ok h
  obtain ⟨old, -, rfl⟩ := map_eq_ok h
  exact .target _ (Target.capped_le ..)

theorem SlidingWindow.withinLimit_of_demand
    (h : (SlidingWindow.demand p s parent).result = .ok d) : d.WithinLimit p parent := by
  rw [result_demand] at h
  obtain ⟨last, -, h⟩ := requireBlock_eq_ok h
  obtain ⟨start, -, h⟩ := requireBlock_eq_ok h
  obtain ⟨first, -, h⟩ := requireBlock_eq_ok h
  obtain ⟨t, ht, rfl⟩ := map_eq_ok h
  exact .target _ (Params.windowTarget_le_limit ht)

/-- A demand means that a whole window of blocks lies below the parent. -/
theorem SlidingWindow.length_le_of_demand (hparent : parent.height < .top)
    (h : (SlidingWindow.demand p s parent).result = .ok d) : length ≤ parent.height.toNat := by
  rw [result_demand] at h
  obtain ⟨last, -, h⟩ := requireBlock_eq_ok h
  obtain ⟨start, hstart, -⟩ := requireBlock_eq_ok h
  have := Store.height_of_back hparent hstart
  omega

/-- With the history that it needs, the emergency rule makes a demand. -/
theorem Emergency.withinLimit_of_demand (hfar : s.back depth parent = .ok (some far))
    (h : (Emergency.demand p s parent).result = .ok d) : d.WithinLimit p parent := by
  rw [result_demand, hfar] at h
  obtain ⟨gap, hgap⟩ := gap_of_depth hfar
  simp only [hgap, Except.bind] at h
  split at h
  · obtain ⟨old, -, rfl⟩ := map_eq_ok h
    exact .target _ (Target.capped_le ..)
  · cases h
    exact .sameAs _

/-- On a parent at the limit, its difficulty is demanded. -/
theorem MinimalDifficulty.demand_of_staying (hlimit : parent.bits.encodes p.limit)
    (h : (staying p parent).result = .ok d) : d = .sameAs parent.bits .unchanged := by
  rw [staying, if_pos hlimit] at h
  exact (Except.ok.inj h).symm

/-! ## The rules of the main network -/

/-- The rules that the main network can select on a parent of this height and these bits. -/
inductive Params.MainnetRule (p : Params) (height : Height) (bits : Compact) : Rule → Prop
  | slidingWindow : MainnetRule p height bits .slidingWindow
  | retarget : height.next.startsInterval p.interval.value → MainnetRule p height bits .retarget
  | stayMinimal : bits.encodes p.limit → MainnetRule p height bits .stayMinimal
  | emergency : bits.encodes p.limit = false → MainnetRule p height bits .emergency

theorem Params.ruleAt_mainnet (hnetwork : p.network = .mainnet) (height : Height)
    (bits : Compact) (time : Timestamp) :
    p.MainnetRule height bits (p.ruleAt height bits time) := by
  have hchecks : p.network.skipsDifficultyChecks = false := by rw [hnetwork]; rfl
  have hminimal : p.minimalAllowed time = false := by rw [minimalAllowed, hnetwork]; rfl
  rw [ruleAt, hchecks, hminimal]
  simp only [Bool.false_eq_true, if_false]
  split
  · exact .slidingWindow
  · split
    · next hstart => exact .retarget hstart
    · split
      · next hlimit => exact .stayMinimal hlimit
      · next hlimit => exact .emergency (Bool.eq_false_iff.2 hlimit)

end DifficultyRules
