/-
# `DifficultyRules.Proofs.Acceptance` — a violation names the difficulty that is accepted

When a block is rejected for its difficulty, the violation names the expected
bits and the actual ones.  The expected bits are a promise to whoever made the
block: with that difficulty, and with no other, it would have been accepted.

The promise rests on two facts.

* The bits of a block have no part in what is demanded of it.  The rule is
  selected, and its demand worked out, from the parent and the time alone, so the
  same demand awaits the block with any other bits (`result_checkSelected_bits`).
* Every demand that can be missed asks for the difficulty of some bits
  (`Demand.expected?`), and these are the bits that a violation names.  A computed
  target is named by its encoding, and it is met where the encoding is met.

The expected bits could still be nonsense, if they are those of a stored block.
They are not as long as the bits of the parent and of its ancestors decode, which
is the one thing that is assumed of the store (`Store.DecodesFrom`).
-/
import DifficultyRules.Proofs.Demand
import DifficultyRules.Proofs.Encoding
import DifficultyRules.Proofs.SteadyTable

namespace DifficultyRules

/-! ## What a demand expects -/

namespace Demand

/-- The bits whose difficulty is demanded. -/
def expected? : Demand → Option Compact
  | anything => none
  | target t _ => some (.ofTarget t)
  | sameAs bits _ => some bits

variable {d : Demand} {bits expected actual : Compact} {m : Mismatch}

/-- A demand for something is missed as if the difficulty of its bits were demanded. -/
theorem violation?_of_expected (h : d.expected? = some expected) (bits : Compact) :
    ∃ otherwise, d.violation? bits = (sameAs expected otherwise).violation? bits := by
  cases d with
  | anything => cases h
  | target t otherwise =>
      cases h
      exact ⟨otherwise, by simp only [violation?, Compact.sameDifficulty_ofTarget]⟩
  | sameAs bits otherwise =>
      cases h
      exact ⟨otherwise, rfl⟩

/-- The bits that pass are those of the expected difficulty. -/
theorem violation?_eq_none (h : d.expected? = some expected) :
    d.violation? bits = none ↔ bits.sameDifficulty expected := by
  obtain ⟨otherwise, heq⟩ := violation?_of_expected h bits
  rw [heq, violation?]
  constructor
  · intro hnone
    by_contra hsame
    rw [if_neg hsame] at hnone
    split at hnone
    · cases hnone
    · cases hnone
  · intro hsame
    obtain ⟨t, ht, -⟩ := Compact.sameDifficulty_iff.1 hsame
    have hdecodes : bits.decodes := Compact.decodes_iff.2 ⟨t, ht⟩
    rw [hdecodes, hsame]
    rfl

/-- A mismatch reports the bits that were expected, and the ones that came. -/
theorem violation?_eq_mismatch (h : d.violation? bits = some (.mismatch m expected actual)) :
    d.expected? = some expected ∧ actual = bits := by
  cases hd : d.expected? with
  | none =>
      cases d with
      | anything => cases h
      | target t otherwise => cases hd
      | sameAs b otherwise => cases hd
  | some e =>
      obtain ⟨otherwise, heq⟩ := violation?_of_expected hd bits
      rw [heq, violation?] at h
      split at h
      · cases h
      · split at h
        · cases h
        · cases h
          exact ⟨rfl, rfl⟩

end Demand

/-- The bits of `b` and of all its stored ancestors decode. -/
def Store.DecodesFrom (s : Store) (b : Block) : Prop :=
  ∀ n c, s.back n b = .ok (some c) → c.bits.decodes

theorem Table.mem_of_get {table : Table} {id : Hash} {b : Block}
    (h : table.store.get id = .ok (some b)) : b ∈ table.blocks := by
  simp only [store] at h
  split at h
  · cases h
  · exact List.mem_of_find?_eq_some (Except.ok.inj h)

theorem Table.decodesFrom {table : Table} {b : Block} (hb : b.bits.decodes)
    (h : ∀ c ∈ table.blocks, c.bits.decodes) : table.store.DecodesFrom b := by
  intro n c hc
  rcases Store.eq_or_get_of_back hc with rfl | ⟨id, hget⟩
  · exact hb
  · exact h c (mem_of_get hget)

/-- With stored bits that decode, a rule expects bits that decode. -/
theorem Demand.DrawnFrom.decodes {s : Store} {parent : Block} {d : Demand} {expected : Compact}
    (h : d.DrawnFrom s parent) (hs : s.DecodesFrom parent) (hd : d.expected? = some expected) :
    expected.decodes := by
  cases h with
  | anything => cases hd
  | target t otherwise =>
      cases hd
      exact Compact.decodes_iff.2 ⟨_, Compact.toTarget_ofTarget t⟩
  | sameAs otherwise hback =>
      cases hd
      exact hs _ _ hback

/-! ## The verdicts on all bits at once -/

section
variable {p : Params} {s : Store} {parent : Block} {header : Header}

/-- The demand that awaits a header awaits it with any bits. -/
theorem result_checkSelected_bits {d : Demand}
    (hd : ((p.ruleAt parent.height parent.bits header.time).demand p s parent header.time).result =
      .ok d) (c : Compact) :
    (checkSelected p s parent { header with bits := c }).result =
      verdict (p.ruleAt parent.height parent.bits header.time) parent.height.next
        (d.violation? c) := by
  rw [result_checkSelected, Rule.result_check, hd]
  rfl

/-- Where the demand is a computed target, the bits that pass are those that decode as its encoding
does. -/
theorem Rule.check_eq_ok_iff_of_target {rule : Rule} {t : Target} {m : Mismatch}
    (h : (rule.demand p s parent header.time).result = .ok (.target t m)) :
    (rule.check p s parent header).result = .ok () ↔ header.bits.toTarget = .ok t.normalized := by
  rw [Rule.result_check, h, Except.bind, verdict_eq_ok, Demand.violation?_eq_none rfl,
    Compact.sameDifficulty_ofTarget, Compact.encodes_iff]

/-- Once the start of its interval is found, the retarget accepts the bits of the scaled target. -/
theorem Retarget.check_eq_ok_iff {first : Block} {old : Target}
    (hfirst : s.back (depth p) parent = .ok (some first)) (hold : parent.bits.toTarget = .ok old) :
    (Rule.retarget.check p s parent header).result = .ok () ↔
      header.bits.toTarget =
        .ok (p.scaledTarget (parent.time.since first.time) old).normalized := by
  have hstored : parent.storedTarget = .ok old := by
    rw [Block.storedTarget, hold]
  refine Rule.check_eq_ok_iff_of_target (m := .scheduled) ?_
  rw [Rule.demand, Retarget.result_demand, hfirst, requireBlock_some, hstored, Except.map]

/-- A violation comes of a demand, and not of working it out. -/
theorem demand_of_violation {rule : Rule} {height : Height} {cause : Violation}
    (h : (checkSelected p s parent header).result = .error (.violation rule height cause)) :
    ∃ d : Demand, d.DrawnFrom s parent ∧
      ((p.ruleAt parent.height parent.bits header.time).demand p s parent header.time).result =
        .ok d ∧
      d.violation? header.bits = some cause := by
  rw [result_checkSelected] at h
  rcases Rule.check_eq_error h with hdemand | ⟨d, cause', hd, hviolation, herror⟩
  · cases Rule.hindrance_of_demand _ hdemand
  · cases herror
    have hyields := (p.ruleAt parent.height parent.bits header.time).yields_demand p s parent
      header.time
    rw [hd] at hyields
    cases hyields with
    | ok hdrawn => exact ⟨d, hdrawn, hd, hviolation⟩

/-- A block is accepted when the selected rule comes to a demand, and its bits meet it. -/
theorem demand_of_accepted
    (h : (checkSelected p s parent header).result = .ok ()) :
    ∃ d : Demand,
      ((p.ruleAt parent.height parent.bits header.time).demand p s parent header.time).result =
        .ok d ∧
      d.violation? header.bits = none := by
  rw [result_checkSelected, Rule.result_check] at h
  cases hd : ((p.ruleAt parent.height parent.bits header.time).demand p s parent
      header.time).result with
  | error e =>
      rw [hd] at h
      cases h
  | ok d =>
      rw [hd] at h
      exact ⟨d, rfl, verdict_eq_ok.1 h⟩

/-- **A violation names the one difficulty that is accepted.**  The actual bits are those of the
block.  The expected bits decode, and in place of the actual ones exactly the bits that decode to
the same target would have been accepted. -/
theorem accepted_of_mismatch {rule : Rule} {height : Height} {m : Mismatch}
    {expected actual : Compact} (hs : s.DecodesFrom parent)
    (h : (checkSelected p s parent header).result =
      .error (.violation rule height (.mismatch m expected actual))) :
    actual = header.bits ∧ ∃ t, expected.toTarget = .ok t ∧
      ∀ c : Compact, (checkSelected p s parent { header with bits := c }).result = .ok () ↔
        c.toTarget = .ok t := by
  obtain ⟨d, hdrawn, hd, hviolation⟩ := demand_of_violation h
  obtain ⟨hexpected, hactual⟩ := Demand.violation?_eq_mismatch hviolation
  obtain ⟨t, ht⟩ := Compact.decodes_iff.1 (hdrawn.decodes hs hexpected)
  refine ⟨hactual, t, ht, fun c => ?_⟩
  rw [result_checkSelected_bits hd, verdict_eq_ok, Demand.violation?_eq_none hexpected,
    Compact.sameDifficulty_iff]
  constructor
  · rintro ⟨t', hc, ht'⟩
    rw [hc, ← ht', ht]
  · intro hc
    exact ⟨t, hc, ht⟩

/-- Instead of the minimal bits, those of the last real block would be accepted. -/
theorem accepted_of_mismatch_minimalRun :
    ∃ t, (minimalRunBits 4).toTarget = .ok t ∧
      ∀ c : Compact,
        (checkSelected lenientTestnet (Table.steady 600 minimalRunBits 8).store
            (Table.steadyBlock 600 minimalRunBits 7)
            { (Table.steadyBlock 600 minimalRunBits 8).toHeader with bits := c }).result = .ok () ↔
          c.toTarget = .ok t := by
  have hs : (Table.steady 600 minimalRunBits 8).store.DecodesFrom
      (Table.steadyBlock 600 minimalRunBits 7) := Table.decodesFrom (by decide) (by decide +kernel)
  have h : (checkSelected lenientTestnet (Table.steady 600 minimalRunBits 8).store
      (Table.steadyBlock 600 minimalRunBits 7)
      (Table.steadyBlock 600 minimalRunBits 8).toHeader).result =
        .error (.violation .returnFromMinimal ⟨8, by decide⟩
          (.mismatch .returned (minimalRunBits 4) (minimalRunBits 8))) := by decide +kernel
  exact (accepted_of_mismatch hs h).2

end
end DifficultyRules
