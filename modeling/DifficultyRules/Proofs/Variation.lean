/-
# `DifficultyRules.Proofs.Variation` — setups that the rules cannot tell apart

A verdict is worked out from a store, a parent and a header.  Here two such
setups are compared that differ in a controlled way, a `Variation`:

    bits     are replaced by others of the same difficulty
    times    are all later, by the same number of seconds
    work     is more for all blocks, by the same amount

Everything else is the same.  Names, parents and heights decide where a walk goes,
so the walks of both setups run side by side, and each reading of the one answers
to that of the other (`Stores.back`, `Stores.suitable`, `Stores.nearest`,
`Stores.medianTime`).  What the rules make of a reading is a difference of times, a
difference of work, or the target that bits decode to.  None of these varies, so
both setups lead to one demand, up to the bits that it repeats (`demand_paired`).

Two results of partial computations belong together when both succeed or both fail
(`Paired`), and all statements have this form.  The main statement is
`checkSelected_paired`: the verdicts are the same, up to the bits that they name.
-/
import Mathlib.Data.List.Forall2
import DifficultyRules.Proofs.Demand

namespace DifficultyRules

/-! ## Results that belong together -/

/-- Both succeed, with values that `R` relates, or both fail, with errors that `E` relates. -/
inductive Paired {ε α : Type} (E : ε → ε → Prop) (R : α → α → Prop) :
    Except ε α → Except ε α → Prop
  | ok {a a' : α} : R a a' → Paired E R (.ok a) (.ok a')
  | error {e e' : ε} : E e e' → Paired E R (.error e) (.error e')

namespace Paired

variable {ε α β : Type} {E : ε → ε → Prop} {R : α → α → Prop} {S : β → β → Prop}

theorem bind {x x' : Except ε α} {f f' : α → Except ε β} (h : Paired E R x x')
    (hf : ∀ a a', R a a' → Paired E S (f a) (f' a')) : Paired E S (x.bind f) (x'.bind f') := by
  cases h with
  | ok ha => exact hf _ _ ha
  | error he => exact .error he

theorem map {x x' : Except ε α} {f f' : α → β} (h : Paired E R x x')
    (hf : ∀ a a', R a a' → S (f a) (f' a')) : Paired E S (x.map f) (x'.map f') := by
  cases h with
  | ok ha => exact .ok (hf _ _ ha)
  | error he => exact .error he

theorem rfl_of_refl (hE : ∀ e, E e e) (hR : ∀ a, R a a) (x : Except ε α) : Paired E R x x := by
  cases x with
  | ok a => exact .ok (hR a)
  | error e => exact .error (hE e)

/-- Nothing differs where neither values nor errors may. -/
theorem eq {x x' : Except ε α} (h : Paired E Eq x x') (hE : ∀ e e', E e e' → e = e') :
    x = x' := by
  cases h with
  | ok ha => rw [ha]
  | error he => rw [hE _ _ he]

end Paired

/-! ## Bits of one difficulty -/

namespace Compact

/-- The values are the same, or decode to the same target. -/
def Agrees (a b : Compact) : Prop := a = b ∨ a.sameDifficulty b

namespace Agrees

variable {a b c d : Compact}

theorem toTarget (h : a.Agrees b) :
    a = b ∨ ∃ t, a.toTarget = .ok t ∧ b.toTarget = .ok t :=
  h.imp_right sameDifficulty_iff.1

theorem decodes_eq (h : a.Agrees b) : a.decodes = b.decodes := by
  rcases h.toTarget with rfl | ⟨t, ha, hb⟩
  · rfl
  · rw [decodes, decodes, ha, hb]

theorem encodes_eq (h : a.Agrees b) (t : Target) : a.encodes t = b.encodes t := by
  rcases h.toTarget with rfl | ⟨t', ha, hb⟩
  · rfl
  · rw [encodes, encodes, ha, hb]

theorem sameDifficulty_eq (hab : a.Agrees b) (hcd : c.Agrees d) :
    a.sameDifficulty c = b.sameDifficulty d := by
  have hleft : a.sameDifficulty c = b.sameDifficulty c := by
    rcases hab.toTarget with rfl | ⟨t, ha, hb⟩
    · rfl
    · rw [sameDifficulty, sameDifficulty, ha, hb]
  have hright : b.sameDifficulty c = b.sameDifficulty d := by
    rcases hcd.toTarget with rfl | ⟨t, hc, hd⟩
    · rfl
    · rw [sameDifficulty, sameDifficulty, hc, hd]
  rw [hleft, hright]

end Agrees
end Compact

/-! ## What may vary -/

/-- How one setup differs from another. -/
structure Variation where
  /-- Which bits stand for which. -/
  bits : Compact → Compact → Prop
  /-- How many seconds later every time is. -/
  delay : Nat
  /-- How much more work every chain has. -/
  work : Nat
  refl : ∀ a : Compact, bits a a
  agrees : ∀ {a b : Compact}, bits a b → a.Agrees b

namespace Variation

variable (v : Variation)

/-- The second time is the first, with the delay. -/
def Times (t t' : Timestamp) : Prop := t'.seconds = t.seconds + v.delay

structure Headers (h h' : Header) : Prop where
  id : h'.id = h.id
  parent : h'.parent = h.parent
  time : v.Times h.time h'.time
  bits : v.bits h.bits h'.bits

structure Blocks (b b' : Block) : Prop extends v.Headers b.toHeader b'.toHeader where
  height : b'.height = b.height
  work : b'.work = b.work + v.work

/-- Both lookups bring a block, or neither does, for the same reason. -/
abbrev Lookups : Except QueryError (Option Block) → Except QueryError (Option Block) → Prop :=
  Paired Eq (Option.Rel v.Blocks)

def Stores (s s' : Store) : Prop := ∀ id, v.Lookups (s.get id) (s'.get id)

/-- The constants are the same, but for the one that is a time. -/
def Constants (p p' : Params) : Prop :=
  ∃ cutover, v.Times p.minimalAfter cutover ∧ p' = { p with minimalAfter := cutover }

/-- The same demand, for bits that stand for each other. -/
inductive Demands : Demand → Demand → Prop
  | anything : Demands .anything .anything
  | target (t : Target) (otherwise : Mismatch) :
      Demands (.target t otherwise) (.target t otherwise)
  | sameAs {b b' : Compact} (otherwise : Mismatch) : v.bits b b' →
      Demands (.sameAs b otherwise) (.sameAs b' otherwise)

/-- Violations of the same kind, with bits of the same difficulty. -/
inductive Violations : Violation → Violation → Prop
  | mismatch (demand : Mismatch) {expected expected' actual actual' : Compact} :
      v.bits expected expected' → v.bits actual actual' →
      Violations (.mismatch demand expected actual) (.mismatch demand expected' actual')
  | undecodable {b b' : Compact} : v.bits b b' → Violations (.undecodable b) (.undecodable b')

/-- The same errors, up to the bits that they name. -/
inductive Errors : CheckError → CheckError → Prop
  | violation (rule : Rule) (height : Height) {cause cause' : Violation} :
      v.Violations cause cause' →
      Errors (.violation rule height cause) (.violation rule height cause')
  | storedBits {b b' : Compact} : v.bits b b' → Errors (.storedBits b) (.storedBits b')
  | same (e : CheckError) : Errors e e

variable {v}

theorem Violations.rfl (c : Violation) : v.Violations c c := by
  cases c with
  | mismatch demand expected actual => exact .mismatch demand (v.refl expected) (v.refl actual)
  | undecodable bits => exact .undecodable (v.refl bits)

/-- What stands for a violation is a violation of the same rule, at the same height. -/
theorem violation_of_paired {rule : Rule} {height : Height} {cause : Violation}
    {r : Except CheckError Unit}
    (h : Paired v.Errors Eq (.error (.violation rule height cause)) r) :
    ∃ cause', v.Violations cause cause' ∧ r = .error (.violation rule height cause') := by
  cases h with
  | error he =>
      cases he with
      | violation _ _ hcause => exact ⟨_, hcause, rfl⟩
      | same => exact ⟨cause, .rfl cause, rfl⟩

/-! ## Times -/

namespace Times

variable {t t' u u' : Timestamp}

theorem lt_iff (ht : v.Times t t') (hu : v.Times u u') : t' < u' ↔ t < u := by
  show t'.seconds < u'.seconds ↔ t.seconds < u.seconds
  rw [ht, hu]
  exact Nat.add_lt_add_iff_right

theorem le_iff (ht : v.Times t t') (hu : v.Times u u') : t' ≤ u' ↔ t ≤ u := by
  show t'.seconds ≤ u'.seconds ↔ t.seconds ≤ u.seconds
  rw [ht, hu]
  exact Nat.add_le_add_iff_right

/-- A difference of times does not vary. -/
theorem since_eq (ht : v.Times t t') (hu : v.Times u u') : t'.since u' = t.since u := by
  rw [Timestamp.since, Timestamp.since, ht, hu]
  omega

theorem insertTime {us us' : List Timestamp} (ht : v.Times t t')
    (hus : List.Forall₂ v.Times us us') :
    List.Forall₂ v.Times (insertTime t us) (insertTime t' us') := by
  induction hus with
  | nil => exact .cons ht .nil
  | cons hu hus ih =>
      simp only [DifficultyRules.insertTime, ht.le_iff hu]
      split
      · exact .cons ht (.cons hu hus)
      · exact .cons hu ih

end Times

theorem sortTimes_paired {ts ts' : List Timestamp} (h : List.Forall₂ v.Times ts ts') :
    List.Forall₂ v.Times (sortTimes ts) (sortTimes ts') := by
  induction h with
  | nil => exact .nil
  | cons ht _ ih => exact ht.insertTime ih

theorem getElem?_paired {α : Type} {R : α → α → Prop} {as as' : List α}
    (h : List.Forall₂ R as as') (n : Nat) : Option.Rel R as[n]? as'[n]? := by
  induction h generalizing n with
  | nil => exact .none
  | cons ha _ ih =>
      cases n with
      | zero => exact .some ha
      | succ n => exact ih n

/-- Delayed times are in the same order, so the delayed one of the middle is in the middle. -/
theorem upperMedian?_paired {ts ts' : List Timestamp} (h : List.Forall₂ v.Times ts ts') :
    Option.Rel v.Times (upperMedian? ts) (upperMedian? ts') := by
  rw [upperMedian?, upperMedian?, h.length_eq]
  exact getElem?_paired (sortTimes_paired h) _

/-! ## Readings of a store -/

/-- Which of two blocks is taken does not vary with a condition that does not. -/
theorem Blocks.ite {x x' y y' : Block} {P P' : Prop} [Decidable P] [Decidable P'] (hP : P' ↔ P)
    (hx : v.Blocks x x') (hy : v.Blocks y y') :
    v.Blocks (if P then x else y) (if P' then x' else y') := by
  by_cases h : P
  · rw [if_pos h, if_pos (hP.2 h)]
    exact hx
  · rw [if_neg h, if_neg (mt hP.1 h)]
    exact hy

theorem medianBlock_eq_ite (g p b : Block) :
    medianBlock g p b =
      (let a := if b.time < g.time then b else g
       let c := if b.time < g.time then g else b
       let m := if p.time < a.time then a else p
       if c.time < m.time then c else m) := by
  by_cases h : b.time < g.time
  · simp only [medianBlock, if_pos h]
  · simp only [medianBlock, if_neg h]

theorem Blocks.medianBlock {g g' p p' b b' : Block} (hg : v.Blocks g g') (hp : v.Blocks p p')
    (hb : v.Blocks b b') : v.Blocks (medianBlock g p b) (medianBlock g' p' b') := by
  rw [medianBlock_eq_ite, medianBlock_eq_ite]
  have ha := Blocks.ite (hb.time.lt_iff hg.time) hb hg
  have hc := Blocks.ite (hb.time.lt_iff hg.time) hg hb
  have hm := Blocks.ite (hp.time.lt_iff ha.time) ha hp
  exact Blocks.ite (hc.time.lt_iff hm.time) hc hm

namespace Stores

variable {s s' : Store} {b b' : Block}

theorem parent (hs : v.Stores s s') (hb : v.Blocks b b') :
    v.Lookups (s.parent b) (s'.parent b') := by
  have hget := hs b.parent
  rw [Store.parent, Store.parent, hb.height, hb.parent, hb.id]
  generalize s.get b.parent = found, s'.get b.parent = found' at hget
  split
  · exact .ok .none
  · cases hget with
    | error he => exact .error he
    | ok hfound =>
        cases hfound with
        | none => exact .ok .none
        | some hp =>
            simp only [hp.height]
            split
            · exact .ok (.some hp)
            · exact .error rfl

theorem viaParent (hs : v.Stores s s') (hb : v.Blocks b b')
    {k k' : Block → Except QueryError (Option Block)}
    (hk : ∀ p p', v.Blocks p p' → v.Lookups (k p) (k' p')) :
    v.Lookups (s.viaParent b k) (s'.viaParent b' k') := by
  have hparent := hs.parent hb
  rw [Store.viaParent, Store.viaParent]
  generalize s.parent b = found, s'.parent b' = found' at hparent
  cases hparent with
  | error he => exact .error he
  | ok hfound =>
      cases hfound with
      | none => exact .ok .none
      | some hp => exact hk _ _ hp

theorem back (hs : v.Stores s s') (hb : v.Blocks b b') (n : Nat) :
    v.Lookups (s.back n b) (s'.back n b') := by
  induction n generalizing b b' with
  | zero => exact .ok (.some hb)
  | succ n ih => exact hs.viaParent hb fun p p' hp => ih hp

theorem suitable (hs : v.Stores s s') (hb : v.Blocks b b') :
    v.Lookups (s.suitable b) (s'.suitable b') := by
  rw [Store.suitable_eq, Store.suitable_eq]
  exact hs.viaParent hb fun p p' hp => hs.viaParent hp fun g g' hg =>
    .ok (.some (hg.medianBlock hp hb))

/-- A search for a property that does not vary stops at the same place. -/
theorem nearest (hs : v.Stores s s') (hb : v.Blocks b b') {q q' : Block → Bool}
    (hq : ∀ c c', v.Blocks c c' → q' c' = q c) :
    v.Lookups (s.nearest q b) (s'.nearest q' b') := by
  rw [Store.nearest, Store.nearest]
  generalize History.lookupBound = most
  induction most generalizing b b' with
  | zero => exact .ok .none
  | succ most ih =>
      cases most with
      | zero =>
          rw [Store.find_start_one, Store.find_start_one, hq _ _ hb]
          split
          · exact .ok (.some hb)
          · exact .ok .none
      | succ most =>
          rw [Store.find_start_add_two, Store.find_start_add_two, hq _ _ hb]
          split
          · exact .ok (.some hb)
          · exact hs.viaParent hb fun p p' hp => ih hp

theorem window (hs : v.Stores s s') (hb : v.Blocks b b') (n : Nat) :
    Paired Eq (List.Forall₂ v.Blocks) (s.window (n + 1) b) (s'.window (n + 1) b') := by
  induction n generalizing b b' with
  | zero => exact .ok (.cons hb .nil)
  | succ n ih =>
      have hparent := hs.parent hb
      rw [Store.window_add_two, Store.window_add_two]
      generalize s.parent b = found, s'.parent b' = found' at hparent
      cases hparent with
      | error he => exact .error he
      | ok hfound =>
          cases hfound with
          | none => exact .ok (.cons hb .nil)
          | some hp => exact (ih hp).map fun bs bs' hbs => .cons hb hbs

theorem medianTime (hs : v.Stores s s') (hb : v.Blocks b b') :
    Paired Eq v.Times (s.medianTime b) (s'.medianTime b') := by
  have hwindow := hs.window hb 10
  rw [Store.medianTime, Store.medianTime, show medianSpan = 10 + 1 from rfl]
  generalize s.window (10 + 1) b = found, s'.window (10 + 1) b' = found' at hwindow
  cases hwindow with
  | error he => exact .error he
  | @ok bs bs' hbs =>
      have htimes : List.Forall₂ v.Times (bs.map (·.time)) (bs'.map (·.time)) :=
        List.rel_map (fun c c' (hc : v.Blocks c c') => hc.time) hbs
      have hmedian := upperMedian?_paired htimes
      refine .ok ?_
      generalize upperMedian? (bs.map (·.time)) = m, upperMedian? (bs'.map (·.time)) = m' at hmedian
      cases hmedian with
      | none => exact hb.time
      | some hm => exact hm

end Stores

/-! ## What the rules read off -/

variable {p p' : Params} {s s' : Store} {parent parent' b b' first first' last last' : Block}
  {header header' : Header} {time time' : Timestamp} {α β : Type} {R : α → α → Prop}

/-- Two checks that need a block find blocks that stand for each other, or none for one reason. -/
theorem requireBlock_paired (short : CheckError) {found found' : Except QueryError (Option Block)}
    {k k' : Block → Except CheckError α} (hfound : v.Lookups found found')
    (hk : ∀ b b', v.Blocks b b' → Paired v.Errors R (k b) (k' b')) :
    Paired v.Errors R (requireBlock short found k) (requireBlock short found' k') := by
  cases hfound with
  | error he =>
      cases he
      exact .error (.same _)
  | ok hfound =>
      cases hfound with
      | none => exact .error (.same short)
      | some hb => exact hk _ _ hb

/-- An error of the store is the check's error. -/
theorem query_paired {x x' : Except QueryError α} (h : Paired Eq R x x') :
    Paired v.Errors R (Traced.query x).result (Traced.query x').result := by
  cases h with
  | ok ha => exact .ok ha
  | error he =>
      cases he
      exact .error (.same _)

theorem storedTarget_paired (hb : v.Blocks b b') :
    Paired v.Errors Eq b.storedTarget b'.storedTarget := by
  rw [Block.storedTarget, Block.storedTarget]
  rcases (v.agrees hb.bits).toTarget with heq | ⟨t, ht, ht'⟩
  · rw [← heq]
    cases b.bits.toTarget with
    | ok t => exact .ok rfl
    | error e => exact .error (.same _)
  · rw [ht, ht']
    exact .ok rfl

/-- A window is the work and the time between its ends, and these do not vary. -/
theorem windowTarget_eq (hfirst : v.Blocks first first') (hlast : v.Blocks last last') :
    p.windowTarget first' last' = p.windowTarget first last := by
  have hdone : last'.work - first'.work = last.work - first.work := by
    rw [hlast.work, hfirst.work]
    exact Nat.add_sub_add_right ..
  have hwork : p.windowWork first' last' = p.windowWork first last := by
    simp only [Params.windowWork, Params.windowTimespan, hlast.time.since_eq hfirst.time, hdone]
  rw [Params.windowTarget, Params.windowTarget, hwork, hlast.height, hfirst.height]

theorem gap_paired (hs : v.Stores s s') (hparent : v.Blocks parent parent') :
    Paired v.Errors Eq (Emergency.gap s parent).result (Emergency.gap s' parent').result := by
  simp only [Emergency.gap, Traced.result_bind, Traced.requireBlock_eq, hparent.height]
  refine requireBlock_paired _ (hs.back hparent Emergency.reach) fun c c' hc => ?_
  refine (query_paired (hs.medianTime hparent)).bind fun later later' hlater => ?_
  refine (query_paired (hs.medianTime hc)).bind fun earlier earlier' hearlier => ?_
  exact .ok (hlater.since_eq hearlier).symm

/-! ## Every rule on its own -/

theorem Blocks.bits_encodes (hb : v.Blocks b b') (t : Target) :
    b'.bits.encodes t = b.bits.encodes t :=
  ((v.agrees hb.bits).encodes_eq t).symm

theorem inMinimalRun_eq (hb : v.Blocks b b') : p.inMinimalRun b' = p.inMinimalRun b := by
  rw [Params.inMinimalRun, Params.inMinimalRun, hb.height, hb.bits_encodes]

theorem retarget_paired (hs : v.Stores s s') (hparent : v.Blocks parent parent') :
    Paired v.Errors v.Demands (Retarget.demand p s parent).result
      (Retarget.demand p s' parent').result := by
  rw [Retarget.result_demand, Retarget.result_demand, hparent.height]
  refine requireBlock_paired _ (hs.back hparent _) fun first first' hfirst => ?_
  refine (storedTarget_paired hparent).map fun old old' hold => ?_
  rw [hold, hparent.time.since_eq hfirst.time]
  exact .target _ _

theorem emergency_paired (hs : v.Stores s s') (hparent : v.Blocks parent parent') :
    Paired v.Errors v.Demands (Emergency.demand p s parent).result
      (Emergency.demand p s' parent').result := by
  have hfar := hs.back hparent Emergency.depth
  rw [Emergency.result_demand, Emergency.result_demand]
  generalize s.back Emergency.depth parent = far, s'.back Emergency.depth parent' = far' at hfar
  cases hfar with
  | error he =>
      cases he
      exact .error (.same _)
  | ok hfound =>
      cases hfound with
      | none => exact .ok .anything
      | some _ =>
          refine (gap_paired hs hparent).bind fun gap gap' hgap => ?_
          rw [← hgap]
          split
          · refine (storedTarget_paired hparent).map fun old old' hold => ?_
            rw [hold]
            exact .target _ _
          · exact .ok (.sameAs _ hparent.bits)

theorem slidingWindow_paired (hs : v.Stores s s') (hparent : v.Blocks parent parent') :
    Paired v.Errors v.Demands (SlidingWindow.demand p s parent).result
      (SlidingWindow.demand p s' parent').result := by
  rw [SlidingWindow.result_demand, SlidingWindow.result_demand, hparent.height]
  refine requireBlock_paired _ (hs.suitable hparent) fun last last' hlast => ?_
  refine requireBlock_paired _ (hs.back hparent _) fun start start' hstart => ?_
  refine requireBlock_paired _ (hs.suitable hstart) fun first first' hfirst => ?_
  rw [windowTarget_eq hfirst hlast]
  exact (Paired.rfl_of_refl .same (fun _ => rfl) _).map fun t t' ht => ht ▸ .target _ _

theorem afterGap_paired (hparent : v.Blocks parent parent') (htime : v.Times time time') :
    Paired v.Errors v.Demands (MinimalDifficulty.afterGap p parent time).result
      (MinimalDifficulty.afterGap p parent' time').result := by
  rw [MinimalDifficulty.afterGap, MinimalDifficulty.afterGap, htime.since_eq hparent.time]
  split
  · exact .ok (.target _ _)
  · exact .ok .anything

theorem comingBack_paired (hs : v.Stores s s') (hparent : v.Blocks parent parent')
    (htime : v.Times time time') :
    Paired v.Errors v.Demands (MinimalDifficulty.comingBack p s parent time).result
      (MinimalDifficulty.comingBack p s' parent' time').result := by
  have hnearest : v.Lookups (s.nearest (fun b => !p.inMinimalRun b) parent)
      (s'.nearest (fun b => !p.inMinimalRun b) parent') :=
    hs.nearest hparent fun c c' hc => by rw [inMinimalRun_eq hc]
  rw [MinimalDifficulty.result_comingBack, MinimalDifficulty.result_comingBack,
    htime.since_eq hparent.time]
  generalize s.nearest (fun b => !p.inMinimalRun b) parent = found,
    s'.nearest (fun b => !p.inMinimalRun b) parent' = found' at hnearest
  split
  · exact .ok .anything
  · cases hnearest with
    | error he =>
        cases he
        exact .error (.same _)
    | ok hfound =>
        cases hfound with
        | none => exact .ok .anything
        | some hc => exact .ok (.sameAs _ hc.bits)

theorem staying_paired (hparent : v.Blocks parent parent') :
    Paired v.Errors v.Demands (MinimalDifficulty.staying p parent).result
      (MinimalDifficulty.staying p parent').result := by
  rw [MinimalDifficulty.staying, MinimalDifficulty.staying, hparent.bits_encodes]
  split
  · exact .ok (.sameAs _ hparent.bits)
  · exact .ok .anything

/-- **Setups that vary lead to one demand.** -/
theorem demand_paired (hs : v.Stores s s') (hparent : v.Blocks parent parent')
    (htime : v.Times time time') (rule : Rule) :
    Paired v.Errors v.Demands (rule.demand p s parent time).result
      (rule.demand p s' parent' time').result := by
  cases rule with
  | retarget => exact retarget_paired hs hparent
  | emergency => exact emergency_paired hs hparent
  | slidingWindow => exact slidingWindow_paired hs hparent
  | minimalAfterGap => exact afterGap_paired hparent htime
  | returnFromMinimal => exact comingBack_paired hs hparent htime
  | stayMinimal => exact staying_paired hparent
  | unchecked => exact .ok .anything

/-! ## Verdicts -/

theorem violation?_paired {d d' : Demand} {bits bits' : Compact} (hd : v.Demands d d')
    (hbits : v.bits bits bits') :
    Option.Rel v.Violations (d.violation? bits) (d'.violation? bits') := by
  have hagrees := v.agrees hbits
  cases hd with
  | anything => exact .none
  | target t otherwise =>
      rw [Demand.violation?, Demand.violation?, hagrees.decodes_eq, hagrees.encodes_eq]
      split
      · exact .some (.undecodable hbits)
      · split
        · exact .none
        · exact .some (.mismatch _ (v.refl _) hbits)
  | sameAs otherwise hexpected =>
      rw [Demand.violation?, Demand.violation?, hagrees.decodes_eq,
        hagrees.sameDifficulty_eq (v.agrees hexpected)]
      split
      · exact .some (.undecodable hbits)
      · split
        · exact .none
        · exact .some (.mismatch _ hexpected hbits)

theorem verdict_paired (rule : Rule) (height : Height) {c c' : Option Violation}
    (h : Option.Rel v.Violations c c') :
    Paired v.Errors Eq (verdict rule height c) (verdict rule height c') := by
  cases h with
  | none => exact .ok rfl
  | some hcause => exact .error (.violation rule height hcause)

theorem check_paired (hs : v.Stores s s') (hparent : v.Blocks parent parent')
    (hheader : v.Headers header header') (rule : Rule) :
    Paired v.Errors Eq (rule.check p s parent header).result
      (rule.check p s' parent' header').result := by
  rw [Rule.result_check, Rule.result_check, hparent.height]
  exact (demand_paired hs hparent hheader.time rule).bind fun d d' hd =>
    verdict_paired _ _ (violation?_paired hd hheader.bits)

/-- Times are compared with the one constant that is a time, which is delayed as they are. -/
theorem ruleAt_eq (hp : v.Constants p p') (hparent : v.Blocks parent parent')
    (htime : v.Times time time') :
    p'.ruleAt parent'.height parent'.bits time' = p.ruleAt parent.height parent.bits time := by
  obtain ⟨cutover, hcutover, rfl⟩ := hp
  have hallowed : ({ p with minimalAfter := cutover } : Params).minimalAllowed time' =
      p.minimalAllowed time := by
    simp only [Params.minimalAllowed, hcutover.lt_iff htime]
  simp only [Params.ruleAt, hallowed, hparent.height, hparent.bits_encodes]

/-- No rule reads the constant that is a time; it is only used to select one. -/
theorem check_minimalAfter (p : Params) (cutover : Timestamp) (s : Store) (parent : Block)
    (header : Header) (rule : Rule) :
    rule.check { p with minimalAfter := cutover } s parent header =
      rule.check p s parent header := by
  cases rule with
  | retarget | emergency | slidingWindow | minimalAfterGap | returnFromMinimal | stayMinimal
  | unchecked => rfl

/-- **Setups that vary lead to one verdict**, up to the bits that it names. -/
theorem checkSelected_paired (hp : v.Constants p p') (hs : v.Stores s s')
    (hparent : v.Blocks parent parent') (hheader : v.Headers header header') :
    Paired v.Errors Eq (checkSelected p s parent header).result
      (checkSelected p' s' parent' header').result := by
  rw [result_checkSelected, result_checkSelected, ruleAt_eq hp hparent hheader.time]
  obtain ⟨cutover, -, rfl⟩ := hp
  rw [check_minimalAfter]
  exact check_paired hs hparent hheader _

end Variation
end DifficultyRules
