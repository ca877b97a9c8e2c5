/-
# `DifficultyRules.Proofs.Warnings` — the log warns of what is rejected

A check leaves a log beside its verdict.  Whoever watches the log for warnings should see
the blocks that are rejected, each once, and nothing else.

The two could come apart anywhere: records are written while a rule works out its demand,
when it lets a block pass for want of history, and when it rejects.  They do not, because
working out a demand never warns (`Rule.quiet_demand`), and a rejection, which does, ends
the check.  `Traced.Candid` says what that makes of a log.

    nothing is rejected    no record is a warning
    a rule is violated     no record is a warning, but for one at the end that tells of it

One computation after another is candid if both are (`Candid.bind`): the first either
warns and ends everything, or has not warned and leaves the log to the second.  So every
list of rules is candid, by induction on the list, and so is the rule that is selected.
-/
import DifficultyRules.Proofs.RuleList

namespace DifficultyRules

variable {α β : Type} {p : Params} {s : Store} {parent : Block} {header : Header}

/-- A rejection is the only warning. -/
theorem Event.level_eq_warn_iff {event : Event} :
    event.level = .warn ↔ ∃ rule height cause, event = .rejected rule height cause := by
  cases event <;> simp [level]

theorem Event.countP_warn_eq_zero {events : List Event}
    (h : ∀ event ∈ events, event.level ≠ .warn) : events.countP (·.level = .warn) = 0 :=
  List.countP_eq_zero.2 fun event hevent => mt of_decide_eq_true (h event hevent)

namespace Traced

variable {x : Traced α} {f : α → Traced β}

/-! ## Without a warning -/

/-- No record in the log is a warning. -/
def Quiet (x : Traced α) : Prop := ∀ event ∈ x.events, event.level ≠ .warn

theorem quiet_of_events_eq_nil (h : x.events = []) : x.Quiet := by
  rw [Quiet, h]
  exact List.forall_mem_nil _

theorem quiet_pure (a : α) : (pure a : Traced α).Quiet := quiet_of_events_eq_nil rfl

theorem quiet_ofExcept (r : Except CheckError α) : (ofExcept r).Quiet := quiet_of_events_eq_nil rfl

theorem quiet_query (r : Except QueryError α) : (query r).Quiet :=
  quiet_of_events_eq_nil (events_query r)

theorem quiet_require (e : CheckError) (a : Option α) : (require e a).Quiet :=
  quiet_of_events_eq_nil (events_require e a)

theorem quiet_emit {event : Event}
    (h : ∀ rule height cause, event ≠ .rejected rule height cause) : (emit event).Quiet := by
  refine List.forall_mem_singleton.2 fun hwarn => ?_
  obtain ⟨rule, height, cause, rfl⟩ := Event.level_eq_warn_iff.1 hwarn
  exact h rule height cause rfl

theorem Quiet.bind (hx : x.Quiet) (hf : ∀ a, (f a).Quiet) : (x >>= f).Quiet := by
  intro event hevent
  rw [events_bind] at hevent
  rcases List.mem_append.1 hevent with hevent | hevent
  · exact hx event hevent
  · cases hresult : x.result with
    | error e =>
        rw [hresult] at hevent
        cases hevent
    | ok a =>
        rw [hresult] at hevent
        exact hf a event hevent

/-! ## Warning of violations, and of nothing else -/

/-- The log warns of a violation, at its end, and of nothing else. -/
inductive Candid (x : Traced α) : Prop
  | quiet : x.Quiet → (∀ rule height cause, x.result ≠ .error (.violation rule height cause)) →
      Candid x
  | rejected {rule : Rule} {height : Height} {cause : Violation} {before : List Event} :
      x.result = .error (.violation rule height cause) →
      x.events = before ++ [.rejected rule height cause] →
      (∀ event ∈ before, event.level ≠ .warn) → Candid x

theorem candid_pure (a : α) : (pure a : Traced α).Candid :=
  .quiet (quiet_pure a) fun rule height cause => by simp

/-- What has been candid so far stays so, if what follows is. -/
theorem Candid.bind (hx : x.Candid) (hf : ∀ a, (f a).Candid) : (x >>= f).Candid := by
  cases hx with
  | rejected hresult hevents hbefore =>
      rw [bind_of_error hresult]
      exact .rejected rfl hevents hbefore
  | quiet hquiet hclean =>
      cases hresult : x.result with
      | error e =>
          rw [bind_of_error hresult]
          refine .quiet hquiet fun rule height cause herror => ?_
          cases herror
          exact hclean rule height cause hresult
      | ok a =>
          rw [bind_of_ok hresult]
          cases hf a with
          | quiet hquiet' hclean' =>
              exact .quiet (List.forall_mem_append.2 ⟨hquiet, hquiet'⟩) hclean'
          | rejected hresult' hevents' hbefore' =>
              refine .rejected hresult' ?_ (List.forall_mem_append.2 ⟨hquiet, hbefore'⟩)
              rw [hevents', List.append_assoc]

end Traced

open Traced

/-! ## Rules work quietly -/

theorem Retarget.quiet_demand : (Retarget.demand p s parent).Quiet :=
  (quiet_query _).bind fun _ => (quiet_require _ _).bind fun _ => (quiet_ofExcept _).bind fun _ =>
    (quiet_emit (by simp)).bind fun _ => quiet_pure _

theorem SlidingWindow.quiet_demand : (SlidingWindow.demand p s parent).Quiet :=
  (quiet_query _).bind fun _ => (quiet_require _ _).bind fun _ =>
    (quiet_query _).bind fun _ => (quiet_require _ _).bind fun _ =>
      (quiet_query _).bind fun _ => (quiet_require _ _).bind fun _ =>
        (quiet_ofExcept _).bind fun _ => (quiet_emit (by simp)).bind fun _ => quiet_pure _

theorem Emergency.quiet_gap : (Emergency.gap s parent).Quiet :=
  (quiet_query _).bind fun _ => (quiet_require _ _).bind fun _ => (quiet_query _).bind fun _ =>
    (quiet_query _).bind fun _ => quiet_pure _

theorem Emergency.quiet_demand : (Emergency.demand p s parent).Quiet := by
  refine (quiet_query _).bind fun far => ?_
  cases far with
  | none => exact (quiet_emit (by simp)).bind fun _ => quiet_pure _
  | some far =>
      refine quiet_gap.bind fun gap => ?_
      split
      · exact (quiet_ofExcept _).bind fun _ => (quiet_emit (by simp)).bind fun _ => quiet_pure _
      · exact quiet_pure _

theorem MinimalDifficulty.quiet_comingBack (time : Timestamp) :
    (MinimalDifficulty.comingBack p s parent time).Quiet := by
  rw [comingBack]
  split
  · exact quiet_pure _
  · refine (quiet_query _).bind fun found => ?_
    cases found with
    | none => exact (quiet_emit (by simp)).bind fun _ => quiet_pure _
    | some b => exact quiet_pure _

/-- **No rule warns while it works out its demand.** -/
theorem Rule.quiet_demand (rule : Rule) (time : Timestamp) :
    (rule.demand p s parent time).Quiet := by
  cases rule with
  | retarget => exact Retarget.quiet_demand
  | emergency => exact Emergency.quiet_demand
  | slidingWindow => exact SlidingWindow.quiet_demand
  | minimalAfterGap =>
      rw [Rule.demand, MinimalDifficulty.afterGap]
      split
      · exact quiet_pure _
      · exact quiet_pure _
  | returnFromMinimal => exact MinimalDifficulty.quiet_comingBack time
  | stayMinimal =>
      rw [Rule.demand, MinimalDifficulty.staying]
      split
      · exact quiet_pure _
      · exact quiet_pure _
  | unchecked => exact quiet_pure _

/-! ## Candid checks -/

/-- What does not warn, and fails only for want of a demand, is candid. -/
theorem Rule.candid_demand (rule : Rule) (time : Timestamp) :
    (rule.demand p s parent time).Candid := by
  refine .quiet (rule.quiet_demand time) fun named height cause hviolation => ?_
  cases Rule.hindrance_of_demand _ hviolation

theorem Demand.candid_judge (rule : Rule) (height : Height) (bits : Compact) (d : Demand) :
    (d.judge rule height bits).Candid := by
  have hresult := d.result_judge rule height bits
  have hevents := d.events_judge rule height bits
  cases hviolation : d.violation? bits with
  | none =>
      rw [hviolation] at hresult hevents
      refine .quiet (quiet_of_events_eq_nil hevents) fun named place cause herror => ?_
      rw [hresult] at herror
      cases herror
  | some cause =>
      rw [hviolation] at hresult hevents
      exact .rejected hresult hevents (List.forall_mem_nil _)

theorem Rule.candid_check (rule : Rule) : (rule.check p s parent header).Candid :=
  (rule.candid_demand _).bind fun d => d.candid_judge ..

/-- Rules in a list are candid together, because each of them is. -/
theorem candid_checkAll (rules : List Rule) : (checkAll p s parent header rules).Candid := by
  induction rules with
  | nil => exact candid_pure ()
  | cons rule rules ih =>
      rw [checkAll_cons]
      exact rule.candid_check.bind fun _ => ih

theorem candid_selectRule : (selectRule p parent header).Candid := by
  refine .quiet ((quiet_emit (by simp)).bind fun _ => quiet_pure _) fun _ _ _ hviolation => ?_
  cases hviolation

theorem candid_checkSelected : (checkSelected p s parent header).Candid :=
  candid_selectRule.bind fun rule => candid_checkAll [rule]

theorem candid_loadParent : (ofExcept (loadParent s header)).Candid := by
  refine .quiet (quiet_ofExcept _) fun rule height cause hviolation => ?_
  rw [result_ofExcept, loadParent] at hviolation
  split at hviolation
  · cases hviolation
  · cases hviolation
  · cases hviolation

theorem candid_checkHeader : (checkHeader p s header).Candid :=
  candid_loadParent.bind fun _ => candid_checkSelected

/-! ## What the log shows -/

/-- There is a warning in the log if a rule is violated, and only then.  It is the last record, and
the only warning, and tells of the violation. -/
structure Traced.WarnsOfViolation (x : Traced α) : Prop where
  countP_warn_le : x.events.countP (·.level = .warn) ≤ 1
  warns_iff : (∃ event ∈ x.events, event.level = .warn) ↔
    ∃ rule height cause, x.result = .error (.violation rule height cause)
  last_of_violation : ∀ rule height cause, x.result = .error (.violation rule height cause) →
    ∃ event, x.events.getLast? = some event ∧ event.level = .warn ∧
      event.text = "Block at height " ++ height.text ++ " rejected by the " ++ rule.name ++
        " rule: " ++ cause.message

theorem Traced.Candid.warnsOfViolation {x : Traced α} (h : x.Candid) : x.WarnsOfViolation := by
  cases h with
  | quiet hquiet hclean =>
      refine ⟨?count, iff_of_false ?noWarning ?noViolation, ?last⟩
      case count => exact Event.countP_warn_eq_zero hquiet ▸ Nat.zero_le 1
      case noWarning => exact fun ⟨event, hevent, hwarn⟩ => hquiet event hevent hwarn
      case noViolation => exact fun ⟨rule, height, cause, hresult⟩ => hclean _ _ _ hresult
      case last => exact fun rule height cause hresult => absurd hresult (hclean _ _ _)
  | @rejected rule height cause before hresult hevents hbefore =>
      refine ⟨?count, iff_of_true ?warning ⟨rule, height, cause, hresult⟩, ?last⟩
      case count =>
        rw [hevents, List.countP_append, Event.countP_warn_eq_zero hbefore, Nat.zero_add]
        exact List.countP_le_length
      case warning =>
        rw [hevents]
        exact ⟨_, List.mem_append_right _ (List.mem_singleton_self _), rfl⟩
      case last =>
        intro rule' height' cause' hresult'
        rw [hresult] at hresult'
        cases hresult'
        refine ⟨.rejected rule height cause, ?_, rfl, rfl⟩
        rw [hevents, List.getLast?_concat]

/-- **The log warns of violations, and of nothing else.**  This is so for any list of rules, for the
rule that is selected, and where the parent is looked up first: there is a warning exactly if a rule
is violated, there is one, it is the last record, and its text has the height, the rule and the
violation of the error. -/
theorem warnsOfViolation_of_check (p : Params) (s : Store) (parent : Block) (header : Header) :
    (∀ rules, (checkAll p s parent header rules).WarnsOfViolation) ∧
    (checkSelected p s parent header).WarnsOfViolation ∧
    (checkHeader p s header).WarnsOfViolation :=
  ⟨fun rules => (candid_checkAll rules).warnsOfViolation, candid_checkSelected.warnsOfViolation,
    candid_checkHeader.warnsOfViolation⟩

end DifficultyRules
