/-
# `DifficultyRules.Proofs.RuleList` — several rules, one after the other

A header can be held against a list of rules.  They are tried in order, up to the first
that fails, and the verdict of the list is that of the first rule in it that fails alone
(`checkAll_eq_error_iff`), or acceptance if there is none (`checkAll_eq_ok_iff`).

So the order of the rules matters for the error, and for nothing else: a list accepts what
all its rules accept, in any order and however often they are in it.

An error can name a rule and a height.  A rule that is held alone names itself and the
height that the block would have, whichever way it fails (`Rule.named_of_check_eq_error`).
In a list this is the first rule that fails, so that no rule is blamed for another
(`checkAll_ordered`).
-/
import DifficultyRules.Proofs.Demand
import DifficultyRules.Proofs.SteadyTable

namespace DifficultyRules

variable {p : Params} {s : Store} {parent : Block} {header : Header} {rule named : Rule}
  {rules more : List Rule} {height : Height} {e : CheckError}

/-! ## One rule -/

/-- The rule and the height that an error names. -/
def CheckError.named? : CheckError → Option (Rule × Height)
  | violation rule height _ | shortHistory rule height _ => some (rule, height)
  | query _ | storedBits _ | emptyWindow .. | idleWindow .. | parentNotFound ..
  | parentNotRead .. => none

/-- **A rule names itself**, and the height after that of the parent. -/
theorem Rule.named_of_check_eq_error (h : (rule.check p s parent header).result = .error e)
    (hnamed : e.named? = some (named, height)) : named = rule ∧ height = parent.height.next := by
  rcases Rule.check_eq_error h with hdemand | ⟨d, cause, -, -, rfl⟩
  · -- of all that keeps a rule from its demand, only missing history is told of a rule
    cases Rule.hindrance_of_demand _ hdemand with
    | shortHistory depth =>
        cases hnamed
        exact ⟨rfl, rfl⟩
    | query => cases hnamed
    | storedBits => cases hnamed
    | emptyWindow => cases hnamed
    | idleWindow => cases hnamed
  · cases hnamed
    exact ⟨rfl, rfl⟩

/-! ## Lists of rules -/

theorem checkAll_cons : checkAll p s parent header (rule :: rules) =
    rule.check p s parent header >>= fun _ => checkAll p s parent header rules := rfl

/-- A list is held to its end before the next one is begun. -/
theorem checkAll_append : checkAll p s parent header (rules ++ more) =
    checkAll p s parent header rules >>= fun _ => checkAll p s parent header more := by
  induction rules with
  | nil => exact (pure_bind () fun _ => checkAll p s parent header more).symm
  | cons rule rules ih => rw [List.cons_append, checkAll_cons, ih, checkAll_cons, bind_assoc]

theorem result_checkAll_cons : (checkAll p s parent header (rule :: rules)).result =
    (rule.check p s parent header).result.bind fun _ =>
      (checkAll p s parent header rules).result := by
  rw [checkAll_cons, Traced.result_bind]

/-- A list accepts what each of its rules accepts. -/
theorem checkAll_eq_ok_iff : (checkAll p s parent header rules).result = .ok () ↔
    ∀ rule ∈ rules, (rule.check p s parent header).result = .ok () := by
  induction rules with
  | nil => exact iff_of_true rfl fun _ h => nomatch h
  | cons rule rules ih =>
      rw [result_checkAll_cons, List.forall_mem_cons, ← ih]
      cases (rule.check p s parent header).result with
      | error e => exact iff_of_false (fun h => nomatch h) (fun h => nomatch h.1)
      | ok u => exact (and_iff_right rfl).symm

/-- `rule` is the first in the list that fails when it is held alone, and `e` is how it fails. -/
def FailsFirst (p : Params) (s : Store) (parent : Block) (header : Header) (rules : List Rule)
    (rule : Rule) (e : CheckError) : Prop :=
  ∃ before after, rules = before ++ rule :: after ∧
    (∀ r ∈ before, (r.check p s parent header).result = .ok ()) ∧
    (rule.check p s parent header).result = .error e

theorem FailsFirst.fails (h : FailsFirst p s parent header rules rule e) :
    (rule.check p s parent header).result = .error e := by
  obtain ⟨-, -, -, -, hfails⟩ := h
  exact hfails

theorem FailsFirst.cons (hrule : (rule.check p s parent header).result = .ok ())
    (h : FailsFirst p s parent header rules named e) :
    FailsFirst p s parent header (rule :: rules) named e := by
  obtain ⟨before, after, rfl, hbefore, hfails⟩ := h
  exact ⟨rule :: before, after, rfl, List.forall_mem_cons.2 ⟨hrule, hbefore⟩, hfails⟩

/-- **A list fails as the first rule in it that fails alone.** -/
theorem checkAll_eq_error_iff : (checkAll p s parent header rules).result = .error e ↔
    ∃ rule, FailsFirst p s parent header rules rule e := by
  constructor
  · intro h
    induction rules with
    | nil => cases h
    | cons rule rules ih =>
        rw [result_checkAll_cons] at h
        cases hrule : (rule.check p s parent header).result with
        | error e' =>
            rw [hrule] at h
            cases h
            exact ⟨rule, [], rules, rfl, List.forall_mem_nil _, hrule⟩
        | ok u =>
            rw [hrule] at h
            obtain ⟨named, hnamed⟩ := ih h
            exact ⟨named, hnamed.cons hrule⟩
  · rintro ⟨rule, before, after, rfl, hbefore, hfails⟩
    rw [checkAll_append, Traced.result_bind, checkAll_eq_ok_iff.2 hbefore, Except.bind,
      result_checkAll_cons, hfails, Except.bind]

/-- A late block of real difficulty on a parent at the limit breaks two rules, and the order says
which of them is blamed. -/
example :
    let limitBits := Network.testnet.limitBits
    let parent := Table.steadyBlock 600 (fun _ => limitBits) 3
    let header := (Table.steadyBlock 60000 minimalRunBits 4).toHeader
    let check := checkAll lenientTestnet (Table.store {}) parent header
    (check [.unchecked, .stayMinimal, .minimalAfterGap]).result =
        .error (.violation .stayMinimal parent.height.next
          (.mismatch .unchanged limitBits header.bits)) ∧
      (check [.unchecked, .minimalAfterGap, .stayMinimal]).result =
        .error (.violation .minimalAfterGap parent.height.next
          (.mismatch .minimal limitBits header.bits)) := by
  decide +kernel

/-- **Rules in a list are held in order, and each answers for itself.**  Two lists after each other
are the first, and, if that accepts, the second.  A list accepts what every one of its rules accepts
alone, and so does any other list of the same rules.  An error that names a rule names the first one
in the list that fails alone, which fails with this error, and the height that it names is one more
than the height of the parent, as far as heights go. -/
theorem checkAll_ordered (p : Params) (s : Store) (parent : Block) (header : Header)
    (rules : List Rule) :
    (∀ more, (checkAll p s parent header (rules ++ more)).result =
      (checkAll p s parent header rules).result.bind fun _ =>
        (checkAll p s parent header more).result) ∧
    ((checkAll p s parent header rules).result = .ok () ↔
      ∀ rule ∈ rules, (rule.check p s parent header).result = .ok ()) ∧
    (∀ others : List Rule, (∀ rule, rule ∈ others ↔ rule ∈ rules) →
      ((checkAll p s parent header others).result = .ok () ↔
        (checkAll p s parent header rules).result = .ok ())) ∧
    ∀ e rule height, (checkAll p s parent header rules).result = .error e →
      e.named? = some (rule, height) →
      FailsFirst p s parent header rules rule e ∧
        height.toNat = min (parent.height.toNat + 1) (1 <<< 64 - 1) := by
  refine ⟨fun more => ?append, checkAll_eq_ok_iff, fun others hsame => ?same,
    fun e rule height herror hnamed => ?named⟩
  case append => rw [checkAll_append, Traced.result_bind]
  case same => simp only [checkAll_eq_ok_iff, hsame]
  case named =>
    obtain ⟨first, hfirst⟩ := checkAll_eq_error_iff.1 herror
    obtain ⟨rfl, rfl⟩ := Rule.named_of_check_eq_error hfirst.fails hnamed
    exact ⟨hfirst, Height.toNat_next _⟩

end DifficultyRules
