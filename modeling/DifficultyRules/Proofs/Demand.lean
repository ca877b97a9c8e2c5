/-
# `DifficultyRules.Proofs.Demand` — what each rule demands, with the log left out

A rule is a traced computation, and most statements about it do not mention its
log.  The first section therefore writes every rule as a plain function of what
it reads, one equation a rule (`Retarget.result_demand` and so on).  The rules
that cannot do without a block share the step `requireBlock`: an error of the
lookup is the rule's error, and a missing block is missing history.

What a rule comes to is then one statement about all of them (`Rule.yields_demand`).

* A rule that comes to no demand reports a fault of the store, missing history
  under its own name and height, or stored data that it cannot use
  (`Rule.Hindrance`).  It never blames the block, which it has not looked at.
* A demand is a target that the rule computed, or the bits of a block that it
  found on the walk from the parent (`Demand.DrawnFrom`).
-/
import Mathlib.Control.Monad.Basic
import DifficultyRules.Check
import DifficultyRules.Proofs.Walk

namespace DifficultyRules

/-! ## The rules as functions of what they read -/

/-- Goes on from a block that is found, and ends with `short` where none is. -/
def requireBlock {α : Type} (short : CheckError) (found : Except QueryError (Option Block))
    (k : Block → Except CheckError α) : Except CheckError α :=
  match found with
  | .error e => .error (.query e)
  | .ok none => .error short
  | .ok (some b) => k b

theorem Traced.requireBlock_eq {α : Type} (short : CheckError)
    (found : Except QueryError (Option Block)) (k : Block → Except CheckError α) :
    ((query found).result.bind fun a => (require short a).result.bind k) =
      requireBlock short found k := by
  cases found with
  | error e => rfl
  | ok found => cases found <;> rfl

theorem requireBlock_some {α : Type} (short : CheckError) (b : Block)
    (k : Block → Except CheckError α) : requireBlock short (.ok (some b)) k = k b := rfl

/-- Where no block is found, it does not matter what would be made of it. -/
theorem requireBlock_of_not_found {α : Type} (short : CheckError)
    {found : Except QueryError (Option Block)} (h : ∀ b, found ≠ .ok (some b))
    (k l : Block → Except CheckError α) :
    requireBlock short found k = requireBlock short found l := by
  cases found with
  | error e => rfl
  | ok found =>
      cases found with
      | none => rfl
      | some b => exact absurd rfl (h b)

/-- A rule that needs a block and comes to a demand has found the block. -/
theorem requireBlock_eq_ok {α : Type} {short : CheckError}
    {found : Except QueryError (Option Block)} {k : Block → Except CheckError α} {a : α}
    (h : requireBlock short found k = .ok a) : ∃ b, found = .ok (some b) ∧ k b = .ok a := by
  cases found with
  | error e => cases h
  | ok found =>
      cases found with
      | none => cases h
      | some b => exact ⟨b, rfl, h⟩

theorem map_eq_ok {ε α β : Type} {x : Except ε α} {f : α → β} {b : β} (h : x.map f = .ok b) :
    ∃ a, x = .ok a ∧ f a = b := by
  cases x with
  | error e => cases h
  | ok a => exact ⟨a, rfl, Except.ok.inj h⟩

variable (p : Params) (s : Store) (parent : Block) (time : Timestamp)

theorem Retarget.result_demand :
    (Retarget.demand p s parent).result =
      requireBlock (.shortHistory .retarget parent.height.next (depth p)) (s.back (depth p) parent)
        fun first => parent.storedTarget.map fun old =>
          .target (p.scaledTarget (parent.time.since first.time) old) .scheduled := by
  simp only [Retarget.demand, Traced.result_bind, Traced.requireBlock_eq, Traced.result_ofExcept,
    Traced.result_emit, Traced.result_pure]
  rfl

theorem SlidingWindow.result_demand :
    (SlidingWindow.demand p s parent).result =
      requireBlock (.shortHistory .slidingWindow parent.height.next depth) (s.suitable parent)
        fun last =>
          requireBlock (.shortHistory .slidingWindow parent.height.next depth)
            (s.back length parent) fun start =>
              requireBlock (.shortHistory .slidingWindow parent.height.next depth)
                (s.suitable start) fun first =>
                  (p.windowTarget first last).map fun t => .target t .scheduled := by
  simp only [SlidingWindow.demand, Traced.result_bind, Traced.requireBlock_eq,
    Traced.result_ofExcept, Traced.result_emit, Traced.result_pure]
  rfl

theorem Emergency.result_demand :
    (Emergency.demand p s parent).result =
      match s.back depth parent with
      | .error e => .error (.query e)
      | .ok none => .ok .anything
      | .ok (some _) => (gap s parent).result.bind fun gap =>
          if slowGap ≤ gap then
            parent.storedTarget.map fun old => .target (p.easedTarget old) .reduced
          else .ok (.sameAs parent.bits .unchanged) := by
  simp only [Emergency.demand]
  cases s.back depth parent with
  | error e => rfl
  | ok found =>
      cases found with
      | none => rfl
      | some far =>
          simp only [Traced.query_ok, pure_bind, Traced.result_bind]
          congr 1
          funext gap
          split
          · simp only [Traced.result_bind, Traced.result_ofExcept, Traced.result_emit,
              Traced.result_pure]
            cases parent.storedTarget <;> rfl
          · rfl

theorem MinimalDifficulty.result_comingBack :
    (comingBack p s parent time).result =
      if time.since parent.time < 0 || p.stalled (time.since parent.time) then .ok .anything
      else
        match s.nearest (fun b => !p.inMinimalRun b) parent with
        | .error e => .error (.query e)
        | .ok none => .ok .anything
        | .ok (some b) => .ok (.sameAs b.bits .returned) := by
  simp only [comingBack]
  split
  · rfl
  · cases s.nearest (fun b => !p.inMinimalRun b) parent with
    | error e => rfl
    | ok found => cases found <;> rfl

/-! ## What comes of a rule -/

/-- What keeps the named rule from coming to a demand for a block at this height. -/
inductive Rule.Hindrance (rule : Rule) (height : Height) : CheckError → Prop
  | query (e : QueryError) : Hindrance rule height (.query e)
  | shortHistory (depth : Nat) : Hindrance rule height (.shortHistory rule height depth)
  | storedBits (bits : Compact) : Hindrance rule height (.storedBits bits)
  | emptyWindow (first last : Height) : Hindrance rule height (.emptyWindow first last)
  | idleWindow (first last : Height) : Hindrance rule height (.idleWindow first last)

/-- A result with the property `P`, or an error that keeps the rule from its demand. -/
inductive Rule.Yields {α : Type} (rule : Rule) (height : Height) (P : α → Prop) :
    Except CheckError α → Prop
  | ok {a : α} : P a → Yields rule height P (.ok a)
  | error {e : CheckError} : rule.Hindrance height e → Yields rule height P (.error e)

/-- Where a demand on the block after `parent` comes from: a target is computed, and bits are
those of a block on the walk. -/
inductive Demand.DrawnFrom (s : Store) (parent : Block) : Demand → Prop
  | anything : DrawnFrom s parent .anything
  | target (t : Target) (otherwise : Mismatch) : DrawnFrom s parent (.target t otherwise)
  | sameAs {n : Nat} {b : Block} (otherwise : Mismatch) :
      s.back n parent = .ok (some b) → DrawnFrom s parent (.sameAs b.bits otherwise)

namespace Rule

variable {α β : Type} {rule : Rule} {height : Height} {P : α → Prop} {Q : β → Prop}

theorem Yields.requireBlock {depth : Nat} {found : Except QueryError (Option Block)}
    {k : Block → Except CheckError α} (hk : ∀ b, rule.Yields height P (k b)) :
    rule.Yields height P (requireBlock (.shortHistory rule height depth) found k) := by
  cases found with
  | error e => exact .error (.query e)
  | ok found =>
      cases found with
      | none => exact .error (.shortHistory depth)
      | some b => exact hk b

theorem Yields.bind {x : Except CheckError α} {f : α → Except CheckError β}
    (hx : rule.Yields height P x) (hf : ∀ a, P a → rule.Yields height Q (f a)) :
    rule.Yields height Q (x.bind f) := by
  cases hx with
  | ok ha => exact hf _ ha
  | error he => exact .error he

theorem Yields.map {x : Except CheckError α} {f : α → β} (hx : rule.Yields height P x)
    (hf : ∀ a, Q (f a)) : rule.Yields height Q (x.map f) := by
  cases hx with
  | ok => exact .ok (hf _)
  | error he => exact .error he

theorem yields_query (x : Except QueryError α) :
    rule.Yields height (fun _ => True) (Traced.query x).result := by
  cases x with
  | error e => exact .error (.query e)
  | ok a => exact .ok trivial

theorem yields_storedTarget (b : Block) :
    rule.Yields height (fun _ => True) b.storedTarget := by
  rw [Block.storedTarget]
  cases b.bits.toTarget with
  | error e => exact .error (.storedBits b.bits)
  | ok t => exact .ok trivial

theorem yields_windowTarget (p : Params) (first last : Block) :
    rule.Yields height (fun _ => True) (p.windowTarget first last) := by
  rw [Params.windowTarget]
  split
  · exact .error (.emptyWindow _ _)
  · split
    · exact .error (.idleWindow _ _)
    · exact .ok trivial

end Rule

theorem Emergency.yields_gap :
    Rule.emergency.Yields parent.height.next (fun _ => True) (gap s parent).result := by
  simp only [gap, Traced.result_bind, Traced.requireBlock_eq]
  exact .requireBlock fun earlier =>
    (Rule.yields_query _).bind fun later _ =>
      (Rule.yields_query _).bind fun early _ => .ok trivial

/-- **What a rule comes to**: a demand that is drawn from the chain, or an error that says why
there is none. -/
theorem Rule.yields_demand (rule : Rule) :
    rule.Yields parent.height.next (Demand.DrawnFrom s parent)
      (rule.demand p s parent time).result := by
  cases rule with
  | retarget =>
      rw [Rule.demand, Retarget.result_demand]
      exact .requireBlock fun first => (yields_storedTarget parent).map fun t => .target _ _
  | emergency =>
      rw [Rule.demand, Emergency.result_demand]
      cases s.back Emergency.depth parent with
      | error e => exact .error (.query e)
      | ok found =>
          cases found with
          | none => exact .ok .anything
          | some far =>
              refine (Emergency.yields_gap s parent).bind fun gap _ => ?_
              split
              · exact (yields_storedTarget parent).map fun t => .target _ _
              · exact .ok (.sameAs _ (Store.back_zero s parent))
  | slidingWindow =>
      rw [Rule.demand, SlidingWindow.result_demand]
      exact .requireBlock fun last => .requireBlock fun start => .requireBlock fun first =>
        (yields_windowTarget p first last).map fun t => .target _ _
  | minimalAfterGap =>
      rw [Rule.demand, MinimalDifficulty.afterGap]
      split
      · exact .ok (.target _ _)
      · exact .ok .anything
  | returnFromMinimal =>
      rw [Rule.demand, MinimalDifficulty.result_comingBack]
      split
      · exact .ok .anything
      · cases hb : s.nearest (fun b => !p.inMinimalRun b) parent with
        | error e => exact .error (.query e)
        | ok found =>
            cases found with
            | none => exact .ok .anything
            | some b =>
                obtain ⟨n, hn, -⟩ := Store.nearest_eq_some hb
                exact .ok (.sameAs _ hn)
  | stayMinimal =>
      rw [Rule.demand, MinimalDifficulty.staying]
      split
      · exact .ok (.sameAs _ (Store.back_zero s parent))
      · exact .ok .anything
  | unchecked => exact .ok .anything

/-! ## Why a check fails -/

section
variable {p s parent} {header : Header} {rule : Rule} {e : CheckError}

/-- An error of the demand is one that keeps the rule from it. -/
theorem Rule.hindrance_of_demand (h : (rule.demand p s parent time).result = .error e) :
    rule.Hindrance parent.height.next e := by
  have hyields := rule.yields_demand p s parent time
  rw [h] at hyields
  cases hyields with
  | error he => exact he

/-- A check fails with its demand, or because the bits miss it. -/
theorem Rule.check_eq_error (h : (rule.check p s parent header).result = .error e) :
    (rule.demand p s parent header.time).result = .error e ∨
      ∃ d cause, (rule.demand p s parent header.time).result = .ok d ∧
        d.violation? header.bits = some cause ∧ e = .violation rule parent.height.next cause := by
  rw [Rule.result_check] at h
  cases hd : (rule.demand p s parent header.time).result with
  | error e' =>
      rw [hd] at h
      cases h
      exact .inl rfl
  | ok d =>
      simp only [hd, Except.bind] at h
      cases hviolation : d.violation? header.bits with
      | none =>
          rw [hviolation] at h
          cases h
      | some cause =>
          rw [hviolation] at h
          cases h
          exact .inr ⟨d, cause, rfl, hviolation, rfl⟩

end

end DifficultyRules
