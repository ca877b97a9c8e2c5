/-
# `DifficultyRules.Proofs.Hindrance` — what in the store keeps a rule from its demand

`Rule.yields_demand` lists the errors by which a rule can end before it has looked
at the block.  Here each of them is traced back to what brought it about
(`Rule.Hindered`).

    a failed lookup          some step of the walk from the parent fails
    missing history          the walk ends before the depth that the rule needs
    bits without a target    they are the bits of the parent
    a window of no use       its ends are found, and it has no blocks or no work

Only two rules need a depth (`Rule.neededDepth?`).  The emergency rule also reads
single ancestors, and would report one that is missing.  But it has found the
sixteenth of them by then, and so has found all others, and its median times as
well.

The other direction holds for missing history: where the walk ends too early, the
rule does report it (`Rule.demand_of_short`).
-/
import DifficultyRules.Proofs.WindowEnds

namespace DifficultyRules

/-! ## Failed readings -/

namespace Store

variable {s : Store} {b : Block} {e : QueryError}

theorem viaParent_eq_error {k : Block → Except QueryError (Option Block)}
    (h : s.viaParent b k = .error e) :
    s.parent b = .error e ∨ ∃ p, s.parent b = .ok (some p) ∧ k p = .error e := by
  rw [viaParent] at h
  split at h
  · next e' hp =>
      cases h
      exact .inl hp
  · cases h
  · next p hp => exact .inr ⟨p, hp, h⟩

/-- A search fails where the walk does. -/
theorem find_eq_error {q : Block → Bool} {most : Nat}
    (h : History.find s q most (.start b) = .error e) : ∃ n, s.back n b = .error e := by
  induction most generalizing b with
  | zero => cases h
  | succ most ih =>
      cases most with
      | zero =>
          rw [find_start_one] at h
          cases h
      | succ most =>
          rw [find_start_add_two] at h
          split at h
          · cases h
          · rcases viaParent_eq_error h with hp | ⟨p, hp, hfind⟩
            · exact ⟨1, by rw [back_one, hp]⟩
            · obtain ⟨n, hn⟩ := ih hfind
              exact ⟨n + 1, by rw [back_succ, viaParent_of_some hp, hn]⟩

theorem nearest_eq_error {q : Block → Bool} (h : s.nearest q b = .error e) :
    ∃ n, s.back n b = .error e :=
  find_eq_error h

end Store

theorem map_eq_error {ε α β : Type} {x : Except ε α} {f : α → β} {e : ε}
    (h : x.map f = .error e) : x = .error e := by
  cases x with
  | error e' =>
      cases h
      rfl
  | ok a => cases h

/-- A rule that needs a block fails with the lookup, for want of the block, or later on. -/
theorem requireBlock_eq_error {α : Type} {short e : CheckError}
    {found : Except QueryError (Option Block)} {k : Block → Except CheckError α}
    (h : requireBlock short found k = .error e) :
    (∃ q, found = .error q ∧ e = .query q) ∨ (found = .ok none ∧ e = short) ∨
      ∃ b, found = .ok (some b) ∧ k b = .error e := by
  cases found with
  | error q =>
      cases h
      exact .inl ⟨q, rfl, rfl⟩
  | ok found =>
      cases found with
      | none =>
          cases h
          exact .inr (.inl ⟨rfl, rfl⟩)
      | some b => exact .inr (.inr ⟨b, rfl, h⟩)

theorem Block.storedTarget_eq_error {b : Block} {e : CheckError} (h : b.storedTarget = .error e) :
    b.bits.decodes = false ∧ e = .storedBits b.bits := by
  rw [storedTarget] at h
  rw [Compact.decodes]
  cases ht : b.bits.toTarget with
  | error e' =>
      rw [ht] at h
      cases h
      exact ⟨rfl, rfl⟩
  | ok t =>
      rw [ht] at h
      cases h

/-! ## Why there is no demand -/

namespace Rule

/-- The number of ancestors without which a rule has no demand to make. -/
def neededDepth? (p : Params) : Rule → Option Nat
  | retarget => some (Retarget.depth p)
  | slidingWindow => some SlidingWindow.depth
  | emergency | minimalAfterGap | returnFromMinimal | stayMinimal | unchecked => none

/-- What the store holds is the reason why the rule ends with the error. -/
inductive Hindered (p : Params) (s : Store) (parent : Block) : Rule → CheckError → Prop
  | query {rule : Rule} {n : Nat} {e : QueryError} : s.back n parent = .error e →
      Hindered p s parent rule (.query e)
  | shortHistory {rule : Rule} {depth : Nat} : rule.neededDepth? p = some depth →
      s.back depth parent = .ok none →
      Hindered p s parent rule (.shortHistory rule parent.height.next depth)
  | storedBits {rule : Rule} : parent.bits.decodes = false →
      Hindered p s parent rule (.storedBits parent.bits)
  | window {first last : Block} {e : CheckError} : SlidingWindow.Ends s parent first last →
      p.windowTarget first last = .error e → Hindered p s parent .slidingWindow e

variable {p : Params} {s : Store} {parent : Block} {time : Timestamp} {rule : Rule}
  {e : CheckError}

theorem hindered_of_storedTarget {α : Type} {f : Target → α}
    (h : parent.storedTarget.map f = .error e) : Hindered p s parent rule e := by
  obtain ⟨hbits, rfl⟩ := Block.storedTarget_eq_error (map_eq_error h)
  exact .storedBits hbits

theorem hindered_of_retarget (h : (Retarget.demand p s parent).result = .error e) :
    Hindered p s parent .retarget e := by
  rw [Retarget.result_demand] at h
  rcases requireBlock_eq_error h with ⟨q, hq, rfl⟩ | ⟨hnone, rfl⟩ | ⟨first, -, h⟩
  · exact .query hq
  · exact .shortHistory rfl hnone
  · exact hindered_of_storedTarget h

theorem hindered_of_emergency (h : (Emergency.demand p s parent).result = .error e) :
    Hindered p s parent .emergency e := by
  rw [Emergency.result_demand] at h
  cases hfar : s.back Emergency.depth parent with
  | error q =>
      rw [hfar] at h
      cases h
      exact .query hfar
  | ok found =>
      cases found with
      | none =>
          rw [hfar] at h
          cases h
      | some far =>
          -- all that the rule reads after this is on the walk to `far`, so the gap has a value
          obtain ⟨gap, hgap⟩ := Emergency.gap_of_depth hfar
          simp only [hfar, hgap, Except.bind] at h
          split at h
          · exact hindered_of_storedTarget h
          · cases h

theorem hindered_of_slidingWindow (h : (SlidingWindow.demand p s parent).result = .error e) :
    Hindered p s parent .slidingWindow e := by
  by_cases hfar : ∃ far, s.back SlidingWindow.depth parent = .ok (some far)
  · obtain ⟨far, hfar⟩ := hfar
    obtain ⟨first, last, hends⟩ := SlidingWindow.exists_ends hfar
    rw [hends.result_demand p] at h
    exact .window hends (map_eq_error h)
  · have hfar : ∀ far, s.back SlidingWindow.depth parent ≠ .ok (some far) :=
      fun far h => hfar ⟨far, h⟩
    rw [SlidingWindow.result_demand_of_not_found hfar p fun _ => .ok .anything] at h
    rcases requireBlock_eq_error h with ⟨q, hq, rfl⟩ | ⟨hnone, rfl⟩ | ⟨far, hfound, -⟩
    · exact .query hq
    · exact .shortHistory rfl hnone
    · exact absurd hfound (hfar far)

theorem hindered_of_comingBack
    (h : (MinimalDifficulty.comingBack p s parent time).result = .error e) :
    Hindered p s parent .returnFromMinimal e := by
  rw [MinimalDifficulty.result_comingBack] at h
  split at h
  · cases h
  · cases hnearest : s.nearest (fun b => !p.inMinimalRun b) parent with
    | error q =>
        rw [hnearest] at h
        cases h
        obtain ⟨n, hn⟩ := Store.nearest_eq_error hnearest
        exact .query hn
    | ok found =>
        rw [hnearest] at h
        cases found with
        | none => cases h
        | some b => cases h

/-- **Why a rule comes to no demand**, with the reason in the store. -/
theorem hindered_of_demand (h : (rule.demand p s parent time).result = .error e) :
    rule.Hindered p s parent e := by
  cases rule with
  | retarget => exact hindered_of_retarget h
  | emergency => exact hindered_of_emergency h
  | slidingWindow => exact hindered_of_slidingWindow h
  | minimalAfterGap =>
      rw [demand, MinimalDifficulty.afterGap] at h
      split at h
      · cases h
      · cases h
  | returnFromMinimal => exact hindered_of_comingBack h
  | stayMinimal =>
      rw [demand, MinimalDifficulty.staying] at h
      split at h
      · cases h
      · cases h
  | unchecked => cases h

/-- A rule that needs more ancestors than there are reports this, at the depth that it needs. -/
theorem demand_of_short {depth : Nat} (hdepth : rule.neededDepth? p = some depth)
    (hback : s.back depth parent = .ok none) :
    (rule.demand p s parent time).result =
      .error (.shortHistory rule parent.height.next depth) := by
  cases rule with
  | retarget =>
      cases hdepth
      rw [demand, Retarget.result_demand, hback]
      rfl
  | slidingWindow =>
      cases hdepth
      have hfar : ∀ far, s.back SlidingWindow.depth parent ≠ .ok (some far) := by
        intro far hfound
        rw [hback] at hfound
        cases hfound
      rw [demand, SlidingWindow.result_demand_of_not_found hfar p fun _ => .ok .anything, hback]
      rfl
  | emergency => cases hdepth
  | minimalAfterGap => cases hdepth
  | returnFromMinimal => cases hdepth
  | stayMinimal => cases hdepth
  | unchecked => cases hdepth

end Rule

/-! ## Why a block is not accepted -/

variable {p : Params} {s : Store} {parent : Block} {header : Header} {e : CheckError}

/-- An error that keeps the selected rule from its demand is the verdict. -/
theorem result_checkSelected_of_error
    (h : ((p.ruleAt parent.height parent.bits header.time).demand p s parent header.time).result =
      .error e) : (checkSelected p s parent header).result = .error e := by
  rw [result_checkSelected, Rule.result_check, h]
  rfl

/-- A block that is not accepted violates its rule, or the store hinders the rule. -/
theorem violation_or_hindered (h : (checkSelected p s parent header).result = .error e) :
    (∃ cause, e = .violation (p.ruleAt parent.height parent.bits header.time) parent.height.next
      cause) ∨
    (p.ruleAt parent.height parent.bits header.time).Hindered p s parent e := by
  rw [result_checkSelected] at h
  rcases Rule.check_eq_error h with hdemand | ⟨d, cause, -, -, rfl⟩
  · exact .inr (Rule.hindered_of_demand hdemand)
  · exact .inl ⟨cause, rfl⟩

end DifficultyRules
