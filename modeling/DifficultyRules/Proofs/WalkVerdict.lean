/-
# `DifficultyRules.Proofs.WalkVerdict` — two rules, described by one walk

The sliding window and the emergency rule read the store several times over: ancestors at
two distances, medians of three blocks or of eleven, each reading with its own ways to
fail.  Seen from outside, there is only the walk from the parent, of a fixed number of
steps.  What becomes of a rule depends on whether the walk goes that far.

                        sliding window, 146 steps       emergency rule, 16 steps

    the walk ends       missing history, at depth 146   everything passes
    the walk fails      the failure of the lookup       the failure of the lookup
    the walk goes on    the target of the window        the target of the parent, eased
                        between two medians of three    or not, as two medians of eleven say

`SlidingWindow.Verdict` and `Emergency.Verdict` are these tables as relations, in terms of
parents (`Store.Path`) and of medians by counting (`IsMedian`).  For each of them the rule
comes to exactly the verdict of the relation, on every store (`slidingWindow_check_iff`,
`emergency_check_iff`).

The readings in between never fail on their own account.  A walk that goes on for sixteen
steps fills both windows of eleven blocks, so no median is taken of fewer, and the block
six steps back is always found: the emergency rule does not report missing history.
-/
import DifficultyRules.Proofs.Encoding
import DifficultyRules.Proofs.Hindrance
import DifficultyRules.Proofs.Median

namespace DifficultyRules

/-! ## Verdicts on required targets -/

/-- The verdict on `bits` where the target `wanted` is required, and `expected` is how it is
written.  Where no target is wanted, none is good enough. -/
def verdictOn (rule : Rule) (height : Height) (m : Mismatch) (wanted : Option Target)
    (expected bits : Compact) : Except CheckError Unit :=
  match bits.toTarget with
  | .error _ => .error (.violation rule height (.undecodable bits))
  | .ok t =>
    if wanted = some t then .ok ()
    else .error (.violation rule height (.mismatch m expected bits))

section
variable {rule : Rule} {height : Height} {m : Mismatch} {wanted : Option Target}
  {expected bits : Compact}

theorem verdictOn_eq_ok : verdictOn rule height m wanted expected bits = .ok () ↔
    ∃ t, bits.toTarget = .ok t ∧ wanted = some t := by
  rw [verdictOn]
  cases bits.toTarget with
  | error e => exact iff_of_false (fun h => nomatch h) (fun ⟨_, h, _⟩ => nomatch h)
  | ok t =>
      simp only [Except.ok.injEq, exists_eq_left']
      split
      · next hwanted => exact iff_of_true rfl hwanted
      · next hwanted => exact iff_of_false (fun h => nomatch h) hwanted

theorem verdictOn_ne_shortHistory (rule' : Rule) (height' : Height) (depth : Nat) :
    verdictOn rule height m wanted expected bits ≠ .error (.shortHistory rule' height' depth) := by
  rw [verdictOn]
  intro h
  split at h
  · cases h
  · split at h
    · cases h
    · cases h

/-- Bits are wanted for what they decode to. -/
theorem verdict_sameAs (expected : Compact) :
    verdict rule height ((Demand.sameAs expected m).violation? bits) =
      verdictOn rule height m expected.toTarget.toOption expected bits := by
  rw [Demand.violation?, verdictOn]
  cases hbits : bits.toTarget with
  | error e =>
      have hdecodes : bits.decodes = false := by
        rw [Compact.decodes, hbits]
        rfl
      rw [hdecodes]
      rfl
  | ok t =>
      have hdecodes : bits.decodes = true := Compact.decodes_iff.2 ⟨t, hbits⟩
      have hsame : bits.sameDifficulty expected ↔ expected.toTarget.toOption = some t := by
        rw [Compact.sameDifficulty_iff, hbits]
        cases expected.toTarget <;> simp [Except.toOption, eq_comm]
      by_cases h : expected.toTarget.toOption = some t
      · simp only [hdecodes, hsame.2 h, if_pos h]
        rfl
      · simp only [hdecodes, Bool.eq_false_iff.2 (mt hsame.1 h), if_neg h]
        rfl

/-- A computed target is wanted as it reads back from its encoding. -/
theorem verdict_target (t : Target) :
    verdict rule height ((Demand.target t m).violation? bits) =
      verdictOn rule height m (some t.normalized) (.ofTarget t) bits := by
  have hencoded : (Demand.target t m).violation? bits =
      (Demand.sameAs (.ofTarget t) m).violation? bits := by
    simp only [Demand.violation?, Compact.sameDifficulty_ofTarget]
  rw [hencoded, verdict_sameAs, Compact.toTarget_ofTarget]
  rfl

end

variable {p : Params} {s : Store} {parent first last b : Block} {header : Header}
  {w : Nat → Block} {n i : Nat} {r : Except CheckError Unit}

/-! ## The sliding window -/

namespace SlidingWindow

/-- Of the three blocks of the walk from `w i` on, `b` is the one with the middle time that a
window ends with. -/
structure Chosen (s : Store) (w : Nat → Block) (i : Nat) (b : Block) : Prop where
  suitable : s.suitable (w i) = .ok (some b)
  mem : b ∈ [w i, w (i + 1), w (i + 2)]
  isMedian : IsMedian b.time (timesFrom w i 3)

/-- What becomes of the rule on a block with these bits, by the walk from its parent. -/
inductive Verdict (p : Params) (s : Store) (parent : Block) (bits : Compact) :
    Except CheckError Unit → Prop
  | missing {w : Nat → Block} {k : Nat} : s.Path parent w k → k < 146 →
      s.parent (w k) = .ok none →
      Verdict p s parent bits (.error (.shortHistory .slidingWindow parent.height.next 146))
  | failed {w : Nat → Block} {k : Nat} {e : QueryError} : s.Path parent w k → k < 146 →
      s.parent (w k) = .error e → Verdict p s parent bits (.error (.query e))
  | noTarget {w : Nat → Block} {first last : Block} {e : CheckError} : s.Path parent w 146 →
      Chosen s w 0 last → Chosen s w 144 first → p.windowTarget first last = .error e →
      Verdict p s parent bits (.error e)
  | judged {w : Nat → Block} {first last : Block} {t : Target} : s.Path parent w 146 →
      Chosen s w 0 last → Chosen s w 144 first → p.windowTarget first last = .ok t →
      Verdict p s parent bits (verdictOn .slidingWindow parent.height.next .scheduled
        (some t.normalized) (.ofTarget t) bits)

/-- Any three blocks of a walk have one with the middle time. -/
theorem exists_chosen (h : s.Path parent w n) (hi : i + 2 ≤ n) : ∃ b, Chosen s w i b := by
  have hrest := h.drop i
  obtain ⟨q, hq, hsuitable⟩ := Store.suitable_of_back (hrest.back (k := 2) (by omega))
  rw [hrest.back (k := 1) (by omega)] at hq
  cases hq
  refine ⟨_, hsuitable, ?_, isMedian_medianBlock ..⟩
  rcases medianBlock_cases (w (i + 2)) (w (i + 1)) (w i) with hb | hb | hb
  · simp [hb]
  · simp [hb]
  · simp [hb]

theorem ends_of_path (h : s.Path parent w 146) (hlast : Chosen s w 0 last)
    (hfirst : Chosen s w 144 first) : Ends s parent first last where
  suitable_parent := h.start ▸ hlast.suitable
  suitable_start := ⟨w 144, h.back (by decide), hfirst.suitable⟩

/-- The rule comes to the verdict that its walk leads to. -/
theorem Verdict.result_check (h : Verdict p s parent header.bits r) :
    (Rule.slidingWindow.check p s parent header).result = r := by
  rw [Rule.result_check]
  cases h with
  | missing hw hk hend =>
      rw [Rule.demand_of_short rfl (hw.back_of_end hk hend (by simp))]
      rfl
  | @failed w k e hw hk hend =>
      have hfailed : s.back depth parent = .error e := hw.back_of_end hk hend (by simp)
      have hfar : ∀ far, s.back depth parent ≠ .ok (some far) := by simp [hfailed]
      rw [Rule.demand, result_demand_of_not_found hfar p fun _ => .ok .anything, hfailed]
      rfl
  | noTarget hw hlast hfirst ht =>
      rw [Rule.demand, (ends_of_path hw hlast hfirst).result_demand p, ht]
      rfl
  | judged hw hlast hfirst ht =>
      rw [Rule.demand, (ends_of_path hw hlast hfirst).result_demand p, ht]
      exact verdict_target _

/-- Every walk leads to a verdict. -/
theorem exists_verdict (p : Params) (s : Store) (parent : Block) (bits : Compact) :
    ∃ r, Verdict p s parent bits r := by
  rcases s.path_cases parent 146 with ⟨w, hw⟩ | ⟨w, k, hw, hk, hend⟩ | ⟨w, k, e, hw, hk, hend⟩
  · obtain ⟨last, hlast⟩ := exists_chosen hw (i := 0) (by decide)
    obtain ⟨first, hfirst⟩ := exists_chosen hw (i := 144) (by decide)
    cases ht : p.windowTarget first last with
    | error e => exact ⟨_, .noTarget hw hlast hfirst ht⟩
    | ok t => exact ⟨_, .judged hw hlast hfirst ht⟩
  · exact ⟨_, .missing hw hk hend⟩
  · exact ⟨_, .failed hw hk hend⟩

end SlidingWindow

/-- **The verdict of the sliding window, on every store.**  It is missing history if the walk from
the parent ends within 146 steps, and a failed lookup if it fails there.  If the walk goes on, the
last block of the window is chosen from the first three blocks, the first block from the last
three, and the verdict is that on the target of this window, or why there is none. -/
theorem slidingWindow_check_iff (p : Params) (s : Store) (parent : Block) (header : Header)
    (r : Except CheckError Unit) :
    (Rule.slidingWindow.check p s parent header).result = r ↔
      SlidingWindow.Verdict p s parent header.bits r := by
  constructor
  · rintro rfl
    obtain ⟨r, hr⟩ := SlidingWindow.exists_verdict p s parent header.bits
    rwa [hr.result_check]
  · exact SlidingWindow.Verdict.result_check

/-! ## The emergency rule -/

namespace Emergency

/-- The walk from the parent goes on for sixteen steps.  Of its first eleven blocks, `later` is the
median time, and `earlier` is that of its last eleven. -/
def Medians (s : Store) (parent : Block) (later earlier : Timestamp) : Prop :=
  ∃ w, s.Path parent w 16 ∧ IsMedian later (timesFrom w 0 11) ∧ IsMedian earlier (timesFrom w 6 11)

/-- What becomes of the rule on a block with these bits, by the walk from its parent. -/
inductive Verdict (p : Params) (s : Store) (parent : Block) (bits : Compact) :
    Except CheckError Unit → Prop
  | exempt {w : Nat → Block} {k : Nat} : s.Path parent w k → k < 16 →
      s.parent (w k) = .ok none → Verdict p s parent bits (.ok ())
  | failed {w : Nat → Block} {k : Nat} {e : QueryError} : s.Path parent w k → k < 16 →
      s.parent (w k) = .error e → Verdict p s parent bits (.error (.query e))
  | eased {later earlier : Timestamp} {old new : Target} : Medians s parent later earlier →
      43200 ≤ later.since earlier → parent.bits.toTarget = .ok old →
      new = .capped (old.value + old.value / 4) p.limit →
      Verdict p s parent bits (verdictOn .emergency parent.height.next .reduced
        (some new.normalized) (.ofTarget new) bits)
  | storedBits {later earlier : Timestamp} {e : Compact.DecodeError} :
      Medians s parent later earlier → 43200 ≤ later.since earlier →
      parent.bits.toTarget = .error e → Verdict p s parent bits (.error (.storedBits parent.bits))
  | unchanged {later earlier : Timestamp} : Medians s parent later earlier →
      later.since earlier < 43200 →
      Verdict p s parent bits (verdictOn .emergency parent.height.next .unchanged
        parent.bits.toTarget.toOption parent.bits bits)

variable {later earlier : Timestamp}

theorem exists_medians (h : s.Path parent w 16) :
    ∃ later earlier, Medians s parent later earlier := by
  obtain ⟨later, hlater⟩ := exists_isMedian (timesFrom_ne_nil w 0 10)
  obtain ⟨earlier, hearlier⟩ := exists_isMedian (timesFrom_ne_nil w 6 10)
  exact ⟨later, earlier, w, h, hlater, hearlier⟩

theorem Medians.exists_far (h : Medians s parent later earlier) :
    ∃ far, s.back depth parent = .ok (some far) := by
  obtain ⟨w, hw, -⟩ := h
  exact ⟨w 16, hw.back (Nat.le_refl 16)⟩

/-- The gap that the rule measures is that between the two medians. -/
theorem Medians.result_gap (h : Medians s parent later earlier) :
    (gap s parent).result = .ok (later.since earlier) := by
  obtain ⟨w, hw, hlater, hearlier⟩ := h
  have hback : s.back reach parent = .ok (some (w 6)) := hw.back (by decide)
  have hlater : s.medianTime parent = .ok later :=
    Store.medianTime_of_path (hw.mono (by decide)) hlater
  have hearlier : s.medianTime (w 6) = .ok earlier := by
    refine Store.medianTime_of_path (hw.drop 6) ?_
    simpa only [timesFrom, Nat.zero_add] using hearlier
  simp only [gap, hback, hlater, hearlier, Traced.query_ok, Traced.require_some, pure_bind]
  rfl

/-- Where the walk goes far enough, the gap decides what is demanded. -/
theorem Medians.result_demand (h : Medians s parent later earlier) (p : Params) :
    (demand p s parent).result =
      if 43200 ≤ later.since earlier then
        parent.storedTarget.map fun old => .target (p.easedTarget old) .reduced
      else .ok (.sameAs parent.bits .unchanged) := by
  obtain ⟨far, hfar⟩ := h.exists_far
  rw [Emergency.result_demand, hfar, h.result_gap]
  rfl

/-- The rule comes to the verdict that its walk leads to. -/
theorem Verdict.result_check (h : Verdict p s parent header.bits r) :
    (Rule.emergency.check p s parent header).result = r := by
  rw [Rule.result_check, Rule.demand]
  cases h with
  | @exempt w k hw hk hend =>
      have hnone : s.back depth parent = .ok none := hw.back_of_end hk hend (by simp)
      rw [Emergency.result_demand, hnone]
      rfl
  | @failed w k e hw hk hend =>
      have hfailed : s.back depth parent = .error e := hw.back_of_end hk hend (by simp)
      rw [Emergency.result_demand, hfailed]
      rfl
  | eased hmedians hslow hold hnew =>
      rw [hmedians.result_demand, if_pos hslow, Block.storedTarget, hold, hnew]
      exact verdict_target _
  | storedBits hmedians hslow hold =>
      rw [hmedians.result_demand, if_pos hslow, Block.storedTarget, hold]
      rfl
  | unchanged hmedians hquick =>
      rw [hmedians.result_demand, if_neg (Int.not_le.2 hquick)]
      exact verdict_sameAs _

/-- Every walk leads to a verdict. -/
theorem exists_verdict (p : Params) (s : Store) (parent : Block) (bits : Compact) :
    ∃ r, Verdict p s parent bits r := by
  rcases s.path_cases parent 16 with ⟨w, hw⟩ | ⟨w, k, hw, hk, hend⟩ | ⟨w, k, e, hw, hk, hend⟩
  · obtain ⟨later, earlier, hmedians⟩ := exists_medians hw
    by_cases hslow : 43200 ≤ later.since earlier
    · cases hold : parent.bits.toTarget with
      | error e => exact ⟨_, .storedBits hmedians hslow hold⟩
      | ok old => exact ⟨_, .eased hmedians hslow hold rfl⟩
    · exact ⟨_, .unchanged hmedians (Int.not_le.1 hslow)⟩
  · exact ⟨_, .exempt hw hk hend⟩
  · exact ⟨_, .failed hw hk hend⟩

theorem Verdict.ne_shortHistory {bits : Compact} (h : Verdict p s parent bits r) (rule : Rule)
    (height : Height) (depth : Nat) : r ≠ .error (.shortHistory rule height depth) := by
  cases h with
  | exempt => exact fun h => nomatch h
  | failed => exact fun h => nomatch h
  | eased => exact verdictOn_ne_shortHistory rule height depth
  | storedBits => exact fun h => nomatch h
  | unchanged => exact verdictOn_ne_shortHistory rule height depth

end Emergency

/-- **The verdict of the emergency rule, on every store.**  Everything passes if the walk from the
parent ends within sixteen steps, and a lookup that fails there is the verdict.  If the walk goes
on, the medians of its first eleven and of its last eleven times decide.  Where they are twelve
hours apart or more, the target of the parent is required, eased by a quarter of itself up to the
limit; else the difficulty of the parent as it is.  Missing history is never reported. -/
theorem emergency_check_iff (p : Params) (s : Store) (parent : Block) (header : Header) :
    (∀ r, (Rule.emergency.check p s parent header).result = r ↔
      Emergency.Verdict p s parent header.bits r) ∧
    ∀ rule height depth, (Rule.emergency.check p s parent header).result ≠
      .error (.shortHistory rule height depth) := by
  obtain ⟨r, hr⟩ := Emergency.exists_verdict p s parent header.bits
  rw [hr.result_check]
  refine ⟨fun r' => ⟨?_, fun h' => ?_⟩, hr.ne_shortHistory⟩
  · rintro rfl
    exact hr
  · rw [← h'.result_check, hr.result_check]

end DifficultyRules
