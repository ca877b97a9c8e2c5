/-
# `DifficultyRules.Proofs.StoredDifficulty` — stored bits that do not decode

Three rules hold a block to the difficulty of a stored one: the retarget and
the emergency rule to that of the parent, and the return from minimal difficulty
to that of the nearest block outside the minimal run.  (So does the rule that
keeps a chain at minimal difficulty, but only on a parent whose bits decode to
the limit.)  Such stored bits should always decode.  When they do not, the store
is corrupted, and it is not the block that is to blame.

Whether that is noticed depends on how the rule uses the bits.

    retarget                         decoded, to scale the target
    emergency, after slow blocks     decoded, to ease the target
    emergency, otherwise             compared
    return from minimal difficulty   compared

A rule that decodes the bits ends with `CheckError.storedBits`.  A rule that
compares them does not notice: bits that decode to nothing equal no difficulty, so
every block is rejected for its own, and is called bad for a fault of the store.
`verdict_of_undecodable` gives the verdict in each case, and
`unchanged_undecodable` is an instance of the second kind.
-/
import DifficultyRules.Proofs.Demand
import DifficultyRules.Proofs.SteadyTable

namespace DifficultyRules
namespace Rule

variable {p : Params} {s : Store} {parent b : Block} {header : Header} {time : Timestamp}
  {rule : Rule}

/-- The rule has the history it needs, and holds the block to the difficulty of `b`. -/
inductive HoldsTo (p : Params) (s : Store) (parent : Block) (time : Timestamp) :
    Rule → Block → Prop
  | retarget {first : Block} : s.back (Retarget.depth p) parent = .ok (some first) →
      HoldsTo p s parent time .retarget parent
  | emergency {far : Block} : s.back Emergency.depth parent = .ok (some far) →
      HoldsTo p s parent time .emergency parent
  | returnFromMinimal {b : Block} : 0 ≤ time.since parent.time →
      p.stalled (time.since parent.time) = false →
      s.nearest (fun b => !p.inMinimalRun b) parent = .ok (some b) →
      HoldsTo p s parent time .returnFromMinimal b

/-- The rule decodes the bits that it holds the block to, and does not only compare them. -/
def Decodes (s : Store) (parent : Block) : Rule → Prop
  | retarget => True
  | emergency => ∃ gap, (Emergency.gap s parent).result = .ok gap ∧ Emergency.slowGap ≤ gap
  | _ => False

theorem storedTarget_of_undecodable (hb : b.bits.decodes = false) :
    b.storedTarget = .error (.storedBits b.bits) := by
  rw [Compact.decodes] at hb
  rw [Block.storedTarget]
  cases ht : b.bits.toTarget with
  | error e => rfl
  | ok t =>
      rw [ht] at hb
      cases hb

/-- Either undecodable bits are reported, or the block is held to them as they are. -/
theorem HoldsTo.demand (h : HoldsTo p s parent time rule b) (hb : b.bits.decodes = false) :
    (rule.Decodes s parent ∧
      (rule.demand p s parent time).result = .error (.storedBits b.bits)) ∨
    (¬ rule.Decodes s parent ∧
      ∃ m, (rule.demand p s parent time).result = .ok (.sameAs b.bits m)) := by
  cases h with
  | retarget hfirst =>
      refine .inl ⟨trivial, ?_⟩
      rw [Rule.demand, Retarget.result_demand, hfirst]
      simp only [requireBlock, storedTarget_of_undecodable hb, Except.map]
  | emergency hfar =>
      obtain ⟨gap, hgap⟩ := Emergency.gap_of_depth hfar
      have hdemand : (Rule.emergency.demand p s parent time).result =
          if Emergency.slowGap ≤ gap then .error (.storedBits parent.bits)
          else .ok (.sameAs parent.bits .unchanged) := by
        rw [Rule.demand, Emergency.result_demand, hfar, hgap, storedTarget_of_undecodable hb]
        rfl
      by_cases hslow : Emergency.slowGap ≤ gap
      · exact .inl ⟨⟨gap, hgap, hslow⟩, by rw [hdemand, if_pos hslow]⟩
      · refine .inr ⟨?_, .unchanged, by rw [hdemand, if_neg hslow]⟩
        rintro ⟨gap', hgap', hslow'⟩
        rw [hgap] at hgap'
        cases hgap'
        exact hslow hslow'
  | returnFromMinimal hgap hstalled hnearest =>
      refine .inr ⟨id, .returned, ?_⟩
      rw [Rule.demand, MinimalDifficulty.result_comingBack, hnearest, hstalled, if_neg]
      simp only [Bool.or_false, decide_eq_true_eq]
      omega

end Rule

/-- Bits that equal no difficulty reject whatever is compared with them. -/
theorem Demand.violation?_sameAs_undecodable {expected bits : Compact} (m : Mismatch)
    (hexpected : expected.decodes = false) (hbits : bits.decodes) :
    (sameAs expected m).violation? bits = some (.mismatch m expected bits) := by
  have hsame : ¬ bits.sameDifficulty expected := by
    intro hsame
    obtain ⟨t, -, ht⟩ := Compact.sameDifficulty_iff.1 hsame
    rw [Compact.decodes_iff.2 ⟨t, ht⟩] at hexpected
    cases hexpected
  rw [violation?, hbits, if_neg hsame]
  rfl

/-- **When undecodable stored bits are noticed.**  A rule that decodes them reports them as a
fault of the store.  A rule that only compares them calls the block bad, with whatever difficulty
it comes. -/
theorem verdict_of_undecodable {p : Params} {s : Store} {parent b : Block} {header : Header}
    (h : Rule.HoldsTo p s parent header.time (p.ruleAt parent.height parent.bits header.time) b)
    (hb : b.bits.decodes = false) (hheader : header.bits.decodes) :
    ∃ e, (checkSelected p s parent header).result = .error e ∧
      ((p.ruleAt parent.height parent.bits header.time).Decodes s parent →
        e = .storedBits b.bits ∧ e.errorClass = .general) ∧
      (¬ (p.ruleAt parent.height parent.bits header.time).Decodes s parent →
        (∃ m, e = .violation (p.ruleAt parent.height parent.bits header.time) parent.height.next
          (.mismatch m b.bits header.bits)) ∧ e.errorClass = .badBlock) := by
  rw [result_checkSelected, Rule.result_check]
  rcases h.demand hb with ⟨hdecodes, hdemand⟩ | ⟨hcompares, m, hdemand⟩
  · rw [hdemand]
    exact ⟨_, rfl, fun _ => ⟨rfl, rfl⟩, fun hcompares => absurd hdecodes hcompares⟩
  · simp only [hdemand, Except.bind, Demand.violation?_sameAs_undecodable m hb hheader, verdict]
    exact ⟨_, rfl, fun hdecodes => absurd hdecodes hcompares, fun _ => ⟨⟨m, rfl⟩, rfl⟩⟩

/-- Real difficulty at all heights but 21, where the bits are those of a negative number. -/
def corruptedBits (height : Nat) : Compact :=
  if height = 21 then ⟨0x01fedcba, by decide⟩ else ⟨0x1c7fff80, by decide⟩

/-- The store of a chain that ends with the corrupted block. -/
def corruptedStore (spacing : Nat) : Store := (Table.steady spacing corruptedBits 22).store

/-- After slow blocks the negative bits are reported. -/
theorem verdict_of_undecodable_slow :
    (checkSelected (.preset .mainnet) (corruptedStore 7800)
        (Table.steadyBlock 7800 corruptedBits 21)
        (Table.steadyBlock 7800 corruptedBits 22).toHeader).result =
      .error (.storedBits ⟨0x01fedcba, by decide⟩) := by
  have hfar : (corruptedStore 7800).back Emergency.depth
      (Table.steadyBlock 7800 corruptedBits 21) =
        .ok (some (Table.steadyBlock 7800 corruptedBits 5)) :=
    Table.back_steady (by decide) (by decide) (by decide)
  have hslow : Rule.emergency.Decodes (corruptedStore 7800)
      (Table.steadyBlock 7800 corruptedBits 21) := ⟨46800, by decide +kernel, by decide⟩
  obtain ⟨e, he, hnoticed, -⟩ := @verdict_of_undecodable (.preset .mainnet) (corruptedStore 7800)
    _ _ (Table.steadyBlock 7800 corruptedBits 22).toHeader (.emergency hfar) (by decide) (by decide)
  rw [he, (hnoticed hslow).1]
  rfl

/-- After blocks on schedule they are not, and a block of the difficulty that all others have is
rejected for not having theirs. -/
theorem unchanged_undecodable :
    Rule.HoldsTo (.preset .mainnet) (corruptedStore 600) (Table.steadyBlock 600 corruptedBits 21)
        (Table.steadyBlock 600 corruptedBits 22).time .emergency
        (Table.steadyBlock 600 corruptedBits 21) ∧
      (corruptedBits 21).decodes = false ∧ (corruptedBits 22).decodes ∧
      (checkSelected (.preset .mainnet) (corruptedStore 600)
          (Table.steadyBlock 600 corruptedBits 21)
          (Table.steadyBlock 600 corruptedBits 22).toHeader).result =
        .error (.violation .emergency ⟨22, by decide⟩
          (.mismatch .unchanged ⟨0x01fedcba, by decide⟩ ⟨0x1c7fff80, by decide⟩)) := by
  have hfar : (corruptedStore 600).back Emergency.depth
      (Table.steadyBlock 600 corruptedBits 21) =
        .ok (some (Table.steadyBlock 600 corruptedBits 5)) :=
    Table.back_steady (by decide) (by decide) (by decide)
  exact ⟨.emergency hfar, by decide, by decide, by decide +kernel⟩

end DifficultyRules
