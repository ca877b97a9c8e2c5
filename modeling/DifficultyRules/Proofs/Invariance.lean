/-
# `DifficultyRules.Proofs.Invariance` — what a verdict does not depend on

Two nodes may hold one chain in different forms, and still have to agree on every
block.

* A difficulty has several encodings, and bits may be written in any of them.  A
  verdict depends on the difficulties alone (`verdict_of_reencoded`): the same rule
  is selected, and it accepts the block in both forms, or rejects it in both for the
  same reason.  Only the bits that an error names are those of the form at hand.
* Times and work have an origin, and it is arbitrary.  When all times are later and
  all chains have more work, each by one amount, nothing about the verdict changes
  (`verdict_of_delayed`).  The delay must leave every time within 32 bits, and it
  must delay the one time among the constants as well.

Both are variations of a setup, and the work is done in
`DifficultyRules.Proofs.Variation`.  Here it remains to say what varies, and that no
errors but equal ones correspond when the bits stay as they are.
-/
import DifficultyRules.Proofs.Acceptance
import DifficultyRules.Proofs.CompleteHistory
import DifficultyRules.Proofs.Variation

namespace DifficultyRules

/-! ## Tables that vary block by block -/

namespace Variation

variable {v : Variation} {bs bs' : List Block}

theorem find?_insert_paired {t t' : Table} {b b' : Block} (hb : v.Blocks b b')
    (ht : ∀ id, Option.Rel v.Blocks (t.find? id) (t'.find? id)) (id : Hash) :
    Option.Rel v.Blocks ((t.insert b).find? id) ((t'.insert b').find? id) := by
  rw [Table.find?_insert, Table.find?_insert, hb.id]
  split
  · exact .some hb
  · exact ht id

theorem find?_ofList_paired (h : List.Forall₂ v.Blocks bs bs') (id : Hash) :
    Option.Rel v.Blocks ((Table.ofList bs).find? id) ((Table.ofList bs').find? id) := by
  let P (t t' : Table) : Prop := ∀ id, Option.Rel v.Blocks (t.find? id) (t'.find? id)
  have hinsert : Relator.LiftFun P (Relator.LiftFun v.Blocks P) Table.insert Table.insert :=
    fun _ _ ht _ _ hb => find?_insert_paired hb ht
  exact List.rel_foldl hinsert (fun _ => .none) h id

/-- Tables of blocks that stand for each other answer as stores that do. -/
theorem stores_ofList (h : List.Forall₂ v.Blocks bs bs') :
    v.Stores (Table.ofList bs).store (Table.ofList bs').store := by
  intro id
  simp only [Table.store, Table.fault?_ofList]
  exact .ok (find?_ofList_paired h id)

end Variation

/-! ## The encoding -/

/-- Bits are replaced by others of the same difficulty. -/
def Variation.reencoding : Variation where
  bits := Compact.Agrees
  delay := 0
  work := 0
  refl _ := .inl rfl
  agrees := id

theorem Variation.headers_reencoded {h : Header} {c : Compact} (hc : h.bits.Agrees c) :
    reencoding.Headers h { h with bits := c } :=
  ⟨rfl, rfl, rfl, hc⟩

theorem Variation.blocks_reencoded {b : Block} {c : Compact} (hc : b.bits.Agrees c) :
    reencoding.Blocks b { b with bits := c } :=
  { id := rfl, parent := rfl, time := rfl, bits := hc, height := rfl, work := rfl }

/-- **Verdicts depend on difficulties, not on encodings.**  With any bits, stored or new, replaced
by others that decode to the same target, the same rule is selected.  It accepts in both cases, or
it ends with the same error, up to the encoding of the bits that the error names. -/
theorem verdict_of_reencoded {p : Params} {s s' : Store} {parent parent' : Block}
    {header header' : Header} (hs : Variation.reencoding.Stores s s')
    (hparent : Variation.reencoding.Blocks parent parent')
    (hheader : Variation.reencoding.Headers header header') :
    selectRule p parent' header' = selectRule p parent header ∧
      Paired Variation.reencoding.Errors Eq (checkSelected p s parent header).result
        (checkSelected p s' parent' header').result := by
  have hp : Variation.reencoding.Constants p p := ⟨p.minimalAfter, rfl, rfl⟩
  refine ⟨?_, Variation.checkSelected_paired hp hs hparent hheader⟩
  rw [selectRule, selectRule, Variation.ruleAt_eq hp hparent hheader.time, hparent.height]

/-- One difficulty in two encodings. -/
def alternatingBits (height : Nat) : Compact :=
  if height % 2 = 0 then ⟨0x1c7fff00, by decide⟩ else ⟨0x1d007fff, by decide⟩

theorem agrees_alternatingBits (m n : Nat) :
    (alternatingBits m).Agrees (alternatingBits n) := by
  rw [alternatingBits, alternatingBits]
  split
  · split
    · exact .inl rfl
    · exact .inr (by decide +kernel)
  · split
    · exact .inr (by decide +kernel)
    · exact .inl rfl

/-- On a chain of one difficulty all encodings are exchanged.  A block of four times the difficulty
is rejected before, and so it is rejected after. -/
theorem verdict_of_reencoded_alternating :
    let exchanged (height : Nat) : Compact := alternatingBits (height + 1)
    let header := (Table.steadyBlock 600 alternatingBits 20).toHeader
    (checkSelected (.preset .mainnet) (Table.steady 600 alternatingBits 20).store
        (Table.steadyBlock 600 alternatingBits 19)
        { header with bits := ⟨0x1c1fff00, by decide⟩ }).result =
      .error (.violation .emergency ⟨20, by decide⟩
        (.mismatch .unchanged ⟨0x1d007fff, by decide⟩ ⟨0x1c1fff00, by decide⟩)) ∧
    ∃ cause, Variation.reencoding.Violations
        (.mismatch .unchanged ⟨0x1d007fff, by decide⟩ ⟨0x1c1fff00, by decide⟩) cause ∧
      (checkSelected (.preset .mainnet) (Table.steady 600 exchanged 20).store
          (Table.steadyBlock 600 exchanged 19)
          { header with bits := ⟨0x1d001fff, by decide⟩ }).result =
        .error (.violation .emergency ⟨20, by decide⟩ cause) := by
  intro exchanged header
  have hblock (height : Fin 256) : Variation.reencoding.Blocks
      (Table.steadyBlock 600 alternatingBits height) (Table.steadyBlock 600 exchanged height) :=
    Variation.blocks_reencoded (agrees_alternatingBits _ _)
  have hs : Variation.reencoding.Stores (Table.steady 600 alternatingBits 20).store
      (Table.steady 600 exchanged 20).store := by
    refine Variation.stores_ofList ?_
    rw [List.forall₂_map_left_iff, List.forall₂_map_right_iff, List.forall₂_same]
    exact fun height _ => hblock height
  have hheader : Variation.reencoding.Headers
      { header with bits := ⟨0x1c1fff00, by decide⟩ }
      { header with bits := ⟨0x1d001fff, by decide⟩ } :=
    Variation.headers_reencoded (h := { header with bits := ⟨0x1c1fff00, by decide⟩ })
      (.inr (by decide +kernel))
  have hfirst : (checkSelected (.preset .mainnet) (Table.steady 600 alternatingBits 20).store
      (Table.steadyBlock 600 alternatingBits 19)
      { header with bits := ⟨0x1c1fff00, by decide⟩ }).result =
        .error (.violation .emergency ⟨20, by decide⟩
          (.mismatch .unchanged ⟨0x1d007fff, by decide⟩ ⟨0x1c1fff00, by decide⟩)) := by
    decide +kernel
  have hpaired := (verdict_of_reencoded (p := .preset .mainnet) hs (hblock 19) hheader).2
  rw [hfirst] at hpaired
  exact ⟨hfirst, Variation.violation_of_paired hpaired⟩

/-! ## The origin of times and of work -/

/-- The time `delay` seconds later, if there is such a time. -/
def Timestamp.delayed (t : Timestamp) (delay : Nat) : Timestamp := (t.after? delay).getD t

def Header.delayed (h : Header) (delay : Nat) : Header := { h with time := h.time.delayed delay }

/-- The block at a later time, on a chain that had more work to begin with. -/
def Block.delayed (b : Block) (delay work : Nat) : Block :=
  { b with time := b.time.delayed delay, work := b.work + work }

/-- The store with all of its blocks delayed. -/
def Store.delayed (s : Store) (delay work : Nat) : Store where
  get id := (s.get id).map (Option.map (·.delayed delay work))

def Params.delayed (p : Params) (delay : Nat) : Params :=
  { p with minimalAfter := p.minimalAfter.delayed delay }

/-- All times are later by `delay`, and all chains have `work` more. -/
def Variation.shift (delay work : Nat) : Variation where
  bits := Eq
  delay := delay
  work := work
  refl _ := rfl
  agrees := .inl

namespace Variation

variable {delay work : Nat}

theorem times_delayed {t : Timestamp} (ht : t.seconds + delay < 1 <<< 32) :
    (shift delay work).Times t (t.delayed delay) := by
  rw [Times, Timestamp.delayed, Timestamp.after?, Timestamp.ofNat?, dif_pos ht]
  rfl

theorem headers_delayed {h : Header} (hh : h.time.seconds + delay < 1 <<< 32) :
    (shift delay work).Headers h (h.delayed delay) :=
  ⟨rfl, rfl, times_delayed hh, rfl⟩

theorem blocks_delayed {b : Block} (hb : b.time.seconds + delay < 1 <<< 32) :
    (shift delay work).Blocks b (b.delayed delay work) :=
  { id := rfl, parent := rfl, time := times_delayed hb, bits := rfl, height := rfl, work := rfl }

theorem stores_delayed {s : Store}
    (hs : ∀ id b, s.get id = .ok (some b) → b.time.seconds + delay < 1 <<< 32) :
    (shift delay work).Stores s (s.delayed delay work) := by
  intro id
  have hid := hs id
  show (shift delay work).Lookups (s.get id) ((s.get id).map (Option.map (·.delayed delay work)))
  generalize s.get id = found at hid
  cases found with
  | error e => exact .error rfl
  | ok found =>
      cases found with
      | none => exact .ok .none
      | some b => exact .ok (.some (blocks_delayed (hid b rfl)))

theorem eq_of_violations {c c' : Violation} (h : (shift delay work).Violations c c') : c = c' := by
  cases h with
  | mismatch demand hexpected hactual => rw [show _ = _ from hexpected, show _ = _ from hactual]
  | undecodable hbits => rw [show _ = _ from hbits]

/-- While bits stay as they are, so do errors. -/
theorem eq_of_errors {e e' : CheckError} (h : (shift delay work).Errors e e') : e = e' := by
  cases h with
  | violation rule height hcause => rw [eq_of_violations hcause]
  | storedBits hbits => rw [show _ = _ from hbits]
  | same => rfl

end Variation

/-- **Verdicts depend on differences of time and work only.**  With all times later, and with more
work on every chain, the verdict is exactly the same, as long as the later times have 32 bits. -/
theorem verdict_of_delayed {p : Params} {s : Store} {parent : Block} {header : Header}
    {delay : Nat} (work : Nat) (hp : p.minimalAfter.seconds + delay < 1 <<< 32)
    (hs : ∀ id b, s.get id = .ok (some b) → b.time.seconds + delay < 1 <<< 32)
    (hparent : parent.time.seconds + delay < 1 <<< 32)
    (hheader : header.time.seconds + delay < 1 <<< 32) :
    (checkSelected (p.delayed delay) (s.delayed delay work) (parent.delayed delay work)
      (header.delayed delay)).result = (checkSelected p s parent header).result := by
  have hconstants : (Variation.shift delay work).Constants p (p.delayed delay) :=
    ⟨_, Variation.times_delayed hp, rfl⟩
  have hpaired := Variation.checkSelected_paired hconstants (Variation.stores_delayed hs)
    (Variation.blocks_delayed hparent) (Variation.headers_delayed hheader)
  exact (hpaired.eq fun _ _ => Variation.eq_of_errors).symm

/-- The sliding window from genesis on, with the cutover of the minimal difficulty at the first
block. -/
def windowFromGenesis : Params := { earlyWindow with minimalAfter := ⟨600, by decide⟩ }

/-- A window of blocks on schedule, moved up to the last time that there is. -/
theorem verdict_of_delayed_latest :
    let bits (_ : Nat) : Compact := ⟨0x1c7fff80, by decide⟩
    let delay := 4294967295 - 148 * 600
    let header := (Table.steadyBlock 600 bits 148).toHeader
    (header.delayed delay).time.seconds = 4294967295 ∧
    (checkSelected (windowFromGenesis.delayed delay)
        ((Table.steady 600 bits 148).store.delayed delay (1 <<< 80))
        ((Table.steadyBlock 600 bits 147).delayed delay (1 <<< 80))
        (header.delayed delay)).result =
      .error (.violation .slidingWindow ⟨148, by decide⟩
        (.mismatch .scheduled Network.mainnet.limitBits ⟨0x1c7fff80, by decide⟩)) := by
  intro bits delay header
  have hs : ∀ id b, (Table.steady 600 bits 148).store.get id = .ok (some b) →
      b.time.seconds + delay < 1 <<< 32 := by
    intro id b hb
    obtain ⟨height, hheight, rfl, -⟩ := Table.get_steady_eq_some_iff.1 hb
    have htime : height * 600 % (1 <<< 32) ≤ height * 600 := Nat.mod_le ..
    show height * 600 % (1 <<< 32) + (4294967295 - 148 * 600) < 1 <<< 32
    omega
  have hsame := @verdict_of_delayed windowFromGenesis _ (Table.steadyBlock 600 bits 147) header
    delay (1 <<< 80) (by decide) hs (by decide) (by decide)
  refine ⟨by decide, ?_⟩
  rw [hsame]
  decide +kernel

end DifficultyRules
