/-
# `DifficultyRules.Proofs.MinimalRun` — the difficulty that returns after minimal blocks

A block that comes soon after its parent must have the difficulty of the nearest block
outside the run of minimal blocks that it follows.  The rule finds this block by a
search, backwards from the parent.  Seen from outside, there is the walk from the parent
and the first block of it where the run ends, if the walk goes that far.

    the walk comes to the end of the run    the difficulty of the block that it has come to
    the walk ends before                    everything passes
    the walk fails before                   the failure of the lookup

A run ends at a block that starts an interval or is not at the limit
(`Params.EndsRun`).  Genesis starts an interval whatever its length, so that it needs no
mention of its own.

`MinimalDifficulty.ReturnVerdict` is this table as a relation, and on every store the
rule comes to exactly the verdict of the relation (`returnFromMinimal_check_iff`).  The
parent must be below the largest height.  The height next to that one is the same again,
and a walk could stay there for ever, which is none of the three; below it a walk goes
down with each step, and has come to the start of an interval in time.
-/
import DifficultyRules.Proofs.Lookback
import DifficultyRules.Proofs.WalkVerdict

namespace DifficultyRules

/-! ## Searches along a path -/

namespace Store

variable {s : Store} {b : Block} {w : Nat → Block} {q : Block → Bool} {k n : Nat}

/-- A search that has passed the blocks of a path stops where none of the kind comes next. -/
theorem Path.stopsAt (h : s.Path b w k) (hn : n ≤ k + 1) (hpasses : ∀ i, i < n → q (w i) = false)
    (hstops : ∀ d, s.back n b = .ok (some d) → q d = true) : s.StopsAt q b n where
  passes i hi := ⟨w i, h.back (by omega), hpasses i hi⟩
  stops := hstops

/-- What is found is the first block of the path that has the property. -/
theorem Path.nearest_eq_some (h : s.Path b w n)
    (hpasses : ∀ i, i < n → q (w i) = false) (hq : q (w n) = true) :
    s.nearest q b = .ok (some (w n)) := by
  have hback : s.back n b = .ok (some (w n)) := h.back (Nat.le_refl n)
  have hstops : s.StopsAt q b n := by
    refine h.stopsAt (Nat.le_succ n) hpasses ?_
    intro d hd
    rw [hback] at hd
    cases hd
    exact hq
  rw [nearest_of_stopsAt hstops, hback]

/-- Where no block of the path has the property, the search ends as the walk does. -/
theorem Path.nearest_of_end {r : Except QueryError (Option Block)} (h : s.Path b w k)
    (hpasses : ∀ i, i ≤ k → q (w i) = false) (hend : s.parent (w k) = r)
    (hr : ∀ c, r ≠ .ok (some c)) : s.nearest q b = r := by
  have hback : s.back (k + 1) b = r := h.back_of_end (Nat.lt_succ_self k) hend hr
  have hstops : s.StopsAt q b (k + 1) := by
    refine h.stopsAt (Nat.le_refl _) (fun i hi => hpasses i (Nat.le_of_lt_succ hi)) ?_
    intro d hd
    rw [hback] at hd
    exact absurd hd (hr d)
  rw [nearest_of_stopsAt hstops, hback]

end Store

variable {p : Params} {s : Store} {parent b : Block} {header : Header} {time : Timestamp}
  {bits : Compact} {w : Nat → Block} {n : Nat} {r : Except CheckError Unit}

/-! ## Runs and gaps -/

namespace Params

/-- A run of minimal blocks goes no further back than `b`, which starts an interval or is not at
the limit. -/
def EndsRun (p : Params) (b : Block) : Prop :=
  p.interval.value ∣ b.height.toNat ∨ b.bits.encodes p.limit = false

instance (p : Params) (b : Block) : Decidable (p.EndsRun b) := inferInstanceAs (Decidable (_ ∨ _))

theorem endsRun_iff : p.EndsRun b ↔ (!p.inMinimalRun b) = true := by
  have hstart := b.height.startsInterval_iff p.interval
  have hgenesis : b.height.isGenesis = true → b.height.startsInterval p.interval.value = true := by
    intro h
    have hzero : b.height.toNat = 0 := of_decide_eq_true h
    rw [hstart, hzero]
    exact Nat.dvd_zero _
  rw [EndsRun, ← hstart, inMinimalRun]
  cases hg : b.height.isGenesis with
  | true => simp [hgenesis hg]
  | false => simp

theorem not_endsRun_iff : ¬ p.EndsRun b ↔ (!p.inMinimalRun b) = false := by
  rw [endsRun_iff, Bool.not_eq_true]

/-- Twice the spacing is not capped where it matters, since times have 32 bits. -/
theorem stalled_since_iff (p : Params) (later earlier : Timestamp) :
    p.stalled (later.since earlier) = true ↔ 2 * (p.spacing.value : Int) < later.since earlier := by
  have hlater : later.seconds < 1 <<< 32 := later.lt
  rw [stalled, decide_eq_true_eq, Span.times, Timestamp.since]
  omega

end Params

namespace MinimalDifficulty

/-- The block comes no earlier than its parent, and at most two spacings later. -/
def InTime (p : Params) (parent : Block) (time : Timestamp) : Prop :=
  0 ≤ time.since parent.time ∧ time.since parent.time ≤ 2 * p.spacing.value

instance (p : Params) (parent : Block) (time : Timestamp) : Decidable (InTime p parent time) :=
  inferInstanceAs (Decidable (_ ∧ _))

theorem inTime_iff : InTime p parent time ↔
    (time.since parent.time < 0 || p.stalled (time.since parent.time)) = false := by
  rw [Bool.or_eq_false_iff, decide_eq_false_iff_not, Bool.eq_false_iff, ne_eq,
    p.stalled_since_iff, InTime]
  omega

/-! ## The verdict -/

/-- What becomes of the rule on a block of this time and with these bits, by the walk from its
parent. -/
inductive ReturnVerdict (p : Params) (s : Store) (parent : Block) (time : Timestamp)
    (bits : Compact) : Except CheckError Unit → Prop
  | free : time.since parent.time < 0 ∨ 2 * (p.spacing.value : Int) < time.since parent.time →
      ReturnVerdict p s parent time bits (.ok ())
  | judged {w : Nat → Block} {j : Nat} : InTime p parent time → s.Path parent w j →
      (∀ i, i < j → ¬ p.EndsRun (w i)) → p.EndsRun (w j) →
      ReturnVerdict p s parent time bits (verdictOn .returnFromMinimal parent.height.next .returned
        (w j).bits.toTarget.toOption (w j).bits bits)
  | ended {w : Nat → Block} {k : Nat} : InTime p parent time → s.Path parent w k →
      (∀ i, i ≤ k → ¬ p.EndsRun (w i)) → s.parent (w k) = .ok none →
      ReturnVerdict p s parent time bits (.ok ())
  | failed {w : Nat → Block} {k : Nat} {e : QueryError} : InTime p parent time →
      s.Path parent w k → (∀ i, i ≤ k → ¬ p.EndsRun (w i)) → s.parent (w k) = .error e →
      ReturnVerdict p s parent time bits (.error (.query e))

/-- In time, the demand is what the search for the end of the run has brought. -/
theorem InTime.result_demand (h : InTime p parent time) (s : Store) :
    (comingBack p s parent time).result =
      match s.nearest (fun b => !p.inMinimalRun b) parent with
      | .error e => .error (.query e)
      | .ok none => .ok .anything
      | .ok (some b) => .ok (.sameAs b.bits .returned) := by
  rw [result_comingBack, inTime_iff.1 h]
  rfl

/-- The rule comes to the verdict that its walk leads to. -/
theorem ReturnVerdict.result_check (h : ReturnVerdict p s parent header.time header.bits r) :
    (Rule.returnFromMinimal.check p s parent header).result = r := by
  rw [Rule.result_check, Rule.demand]
  cases h with
  | free hgap =>
      have hgap : (header.time.since parent.time < 0 ||
          p.stalled (header.time.since parent.time)) = true := by
        rw [Bool.or_eq_true, decide_eq_true_eq, p.stalled_since_iff]
        exact hgap
      rw [result_comingBack, hgap]
      rfl
  | judged htime hw hpasses hends =>
      have hnearest := hw.nearest_eq_some (q := fun b => !p.inMinimalRun b)
        (fun i hi => Params.not_endsRun_iff.1 (hpasses i hi)) (Params.endsRun_iff.1 hends)
      rw [htime.result_demand, hnearest]
      exact verdict_sameAs _
  | ended htime hw hpasses hend =>
      have hnearest := hw.nearest_of_end (q := fun b => !p.inMinimalRun b)
        (fun i hi => Params.not_endsRun_iff.1 (hpasses i hi)) hend (by simp)
      rw [htime.result_demand, hnearest]
      rfl
  | failed htime hw hpasses hend =>
      have hnearest := hw.nearest_of_end (q := fun b => !p.inMinimalRun b)
        (fun i hi => Params.not_endsRun_iff.1 (hpasses i hi)) hend (by simp)
      rw [htime.result_demand, hnearest]
      rfl

/-- A search passes the blocks of a path up to where it stops. -/
theorem not_endsRun_of_stopsAt {i k : Nat} (h : s.StopsAt (fun b => !p.inMinimalRun b) parent n)
    (hw : s.Path parent w k) (hi : i ≤ k) : i < n → ¬ p.EndsRun (w i) := by
  intro hin
  obtain ⟨d, hd, hpassed⟩ := h.passes i hin
  rw [hw.back hi] at hd
  cases hd
  exact Params.not_endsRun_iff.2 hpassed

/-- Every walk leads to a verdict. -/
theorem exists_returnVerdict (p : Params) (s : Store) (time : Timestamp) (bits : Compact) :
    parent.height < .top → ∃ r, ReturnVerdict p s parent time bits r := by
  intro hparent
  by_cases htime : InTime p parent time
  · -- the run ends where an interval starts, at the latest, so the search stops somewhere
    obtain ⟨n, -, hstops⟩ := Store.exists_stopsAt
      fun start => not_inMinimalRun_of_back (p := p) (s := s) hparent
    rcases s.path_cases parent n with ⟨w, hw⟩ | ⟨w, k, hw, hk, hend⟩ | ⟨w, k, e, hw, hk, hend⟩
    · have hends : p.EndsRun (w n) :=
        Params.endsRun_iff.2 (hstops.stops _ (hw.back (Nat.le_refl n)))
      exact ⟨_, .judged htime hw
        (fun i hi => not_endsRun_of_stopsAt hstops hw (Nat.le_of_lt hi) hi) hends⟩
    · exact ⟨_, .ended htime hw
        (fun i hi => not_endsRun_of_stopsAt hstops hw hi (Nat.lt_of_le_of_lt hi hk)) hend⟩
    · exact ⟨_, .failed htime hw
        (fun i hi => not_endsRun_of_stopsAt hstops hw hi (Nat.lt_of_le_of_lt hi hk)) hend⟩
  · refine ⟨_, .free ?_⟩
    rw [InTime] at htime
    omega

end MinimalDifficulty

/-- **The verdict of the return from minimal difficulty, on every store.**  A block earlier than its
parent, or more than two spacings later, passes.  Any other must have the difficulty of the first
block of the walk where the run of minimal blocks ends.  It passes if the walk ends before, and a
lookup that fails before is the verdict. -/
theorem returnFromMinimal_check_iff (hparent : parent.height < .top) (p : Params) (s : Store)
    (header : Header) (r : Except CheckError Unit) :
    (Rule.returnFromMinimal.check p s parent header).result = r ↔
      MinimalDifficulty.ReturnVerdict p s parent header.time header.bits r := by
  constructor
  · rintro rfl
    obtain ⟨r, hr⟩ := MinimalDifficulty.exists_returnVerdict p s header.time header.bits hparent
    rwa [hr.result_check]
  · exact MinimalDifficulty.ReturnVerdict.result_check

/-- After two minimal blocks a third one is measured against the real block below them.  Without
that block in the store it passes. -/
theorem returnFromMinimal_check_iff_thirdMinimal :
    let block (height : Nat) := Table.steadyBlock 600 minimalRunBits (Fin.ofNat 256 height)
    let full := Table.steady 600 minimalRunBits 7
    (block 6).height < .top ∧
      (Rule.returnFromMinimal.check lenientTestnet full.store (block 6)
        (block 7).toHeader).result =
        .error (.violation .returnFromMinimal (block 7).height
          (.mismatch .returned (minimalRunBits 4) Network.testnet.limitBits)) ∧
      (Rule.returnFromMinimal.check lenientTestnet (full.erase (block 4).id).store (block 6)
        (block 7).toHeader).result = .ok () := by
  intro block full
  have hparent : (block 6).height < .top := by decide
  have htime : MinimalDifficulty.InTime lenientTestnet (block 6) (block 7).toHeader.time := by
    decide
  have hends (height : Nat) : lenientTestnet.EndsRun (block height) ↔
      ¬ 5 ≤ (Fin.ofNat 256 height).val := by
    rw [Params.endsRun_iff, Bool.not_eq_true', ← Bool.not_eq_true, inMinimalRun_steadyBlock]
  have hrun : ∀ i, i < 2 → ¬ lenientTestnet.EndsRun (block (6 - i)) := by
    simp only [hends]
    decide
  have hreal : lenientTestnet.EndsRun (block 4) := (hends 4).2 (by decide)
  have hwalk : full.store.Path (block 6) (fun i => block (6 - i)) 2 :=
    (Table.path_steady (by decide) (by decide)).mono (by decide)
  have hwalk' : (full.erase (block 4).id).store.Path (block 6) (fun i => block (6 - i)) 1 :=
    ⟨rfl, by decide +kernel⟩
  have hend : (full.erase (block 4).id).store.parent (block 5) = .ok none := by decide +kernel
  refine ⟨hparent, ?_, ?_⟩
  · have hjudged := (returnFromMinimal_check_iff hparent _ _ _ _).2
      (.judged htime hwalk hrun hreal)
    rw [hjudged]
    decide +kernel
  · exact (returnFromMinimal_check_iff hparent _ _ _ _).2
      (.ended htime hwalk' (fun i hi => hrun i (Nat.lt_succ_of_le hi)) hend)

end DifficultyRules
