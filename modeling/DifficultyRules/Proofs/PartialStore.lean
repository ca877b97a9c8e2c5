/-
# `DifficultyRules.Proofs.PartialStore` — verdicts on a store that has lost answers

A node prunes its history, and its disk fails.  In both cases a store `t`
answers like a complete store `s`, except that some lookups bring no block.  The
question is what becomes of a verdict.

The two cases are one statement.  `Store.LosesFrom lost t s` says that `t`
agrees with `s` wherever its lookup is not `lost`, and `lost` is a set of
lookups without a block.  Then every reading of `t` agrees with that of `s`, or
it ends with a lost lookup (`LosesFrom.back`, `suitable`, `nearest`), and so
does every rule.  How a rule ends is `Rule.Cut`:

    fault e          the error e of the lookup, as it is
    nothing found    missing history, named for the rule and the height
    nothing found    acceptance, by the two rules that excuse short history

Nothing else can come of a lost lookup, and in particular no violation.

The readings of a single block end where the lookup is lost, so the induction
along the walk is immediate.  A median time is different, because its window
does not end with a lost lookup but goes on with fewer blocks.  It is never read
over a lost block all the same.  The guard of the emergency rule has found a
block sixteen steps back in `t`, so `t` and `s` agree on all of the walk that
the two median times read (`LosesFrom.sameWalk`).

The main statements are `verdict_of_pruned` and `verdict_of_faults`.
-/
import DifficultyRules.Proofs.Demand
import DifficultyRules.Proofs.SteadyTable

namespace DifficultyRules

/-! ## Readings of a store that has lost lookups -/

namespace Store

/-- `t` answers like `s`, except for lookups that are lost.  A lost lookup brings no block. -/
structure LosesFrom (lost : Except QueryError (Option Block) → Prop) (t s : Store) : Prop where
  get : ∀ id, t.get id = s.get id ∨ lost (t.get id)
  no_block : ∀ b, ¬ lost (.ok (some b))

variable {lost : Except QueryError (Option Block) → Prop} {s t : Store}

/-- A lookup without a block is an error or finds nothing. -/
theorem lost_cases (hblock : ∀ b, ¬ lost (.ok (some b)))
    {found : Except QueryError (Option Block)} (hlost : lost found) :
    (∃ e, found = .error e) ∨ found = .ok none := by
  cases found with
  | error e => exact .inl ⟨e, rfl⟩
  | ok found =>
      cases found with
      | none => exact .inr rfl
      | some b => exact absurd hlost (hblock b)

namespace LosesFrom

theorem parent (h : LosesFrom lost t s) (b : Block) :
    t.parent b = s.parent b ∨ lost (t.parent b) := by
  simp only [Store.parent]
  split
  · exact .inl rfl
  · rcases h.get b.parent with hget | hlost
    · rw [hget]
      exact .inl rfl
    · rcases lost_cases h.no_block hlost with ⟨e, hget⟩ | hget
      · rw [hget] at hlost ⊢
        exact .inr hlost
      · rw [hget] at hlost ⊢
        exact .inr hlost

theorem viaParent (h : LosesFrom lost t s) {k l : Block → Except QueryError (Option Block)}
    (hkl : ∀ p, k p = l p ∨ lost (k p)) (b : Block) :
    t.viaParent b k = s.viaParent b l ∨ lost (t.viaParent b k) := by
  simp only [Store.viaParent]
  rcases h.parent b with hparent | hlost
  · rw [← hparent]
    cases t.parent b with
    | error e => exact .inl rfl
    | ok found =>
        cases found with
        | none => exact .inl rfl
        | some p => exact hkl p
  · rcases lost_cases h.no_block hlost with ⟨e, hparent⟩ | hparent
    · rw [hparent] at hlost ⊢
      exact .inr hlost
    · rw [hparent] at hlost ⊢
      exact .inr hlost

theorem back (h : LosesFrom lost t s) (n : Nat) (b : Block) :
    t.back n b = s.back n b ∨ lost (t.back n b) := by
  induction n generalizing b with
  | zero => exact .inl rfl
  | succ n ih => exact h.viaParent ih b

theorem suitable (h : LosesFrom lost t s) (b : Block) :
    t.suitable b = s.suitable b ∨ lost (t.suitable b) := by
  rw [suitable_eq, suitable_eq]
  exact h.viaParent (fun p => h.viaParent (fun _ => .inl rfl) p) b

theorem nearest (h : LosesFrom lost t s) (q : Block → Bool) (b : Block) :
    t.nearest q b = s.nearest q b ∨ lost (t.nearest q b) := by
  simp only [Store.nearest]
  generalize History.lookupBound = most
  induction most generalizing b with
  | zero => exact .inl rfl
  | succ most ih =>
      cases most with
      | zero => exact .inl (by rw [find_start_one, find_start_one])
      | succ most =>
          rw [find_start_add_two, find_start_add_two]
          split
          · exact .inl rfl
          · exact h.viaParent ih b

/-- As far as `t` finds blocks, it has lost nothing. -/
theorem sameWalk (h : LosesFrom lost t s) {n : Nat} {b c : Block}
    (hc : t.back n b = .ok (some c)) : SameWalk t s n b := by
  intro k hk
  rcases h.back k b with hback | hlost
  · exact hback
  · obtain ⟨d, hd, -⟩ := back_split hc hk
    exact absurd (hd ▸ hlost) (h.no_block d)

end LosesFrom
end Store

/-! ## How a rule ends -/

/-- How a rule ends on a lookup that brings no block.  `accepted` is the result by which it
passes where history is short. -/
inductive Rule.Cut {α : Type} (rule : Rule) (height : Height) (accepted : α) :
    Except QueryError (Option Block) → Except CheckError α → Prop
  | fault (e : QueryError) : Cut rule height accepted (.error e) (.error (.query e))
  | short (depth : Nat) :
      Cut rule height accepted (.ok none) (.error (.shortHistory rule height depth))
  | excused : rule = .emergency ∨ rule = .returnFromMinimal →
      Cut rule height accepted (.ok none) (.ok accepted)

/-- `r` is the same as `r'`, or the rule ended on a lost lookup. -/
def Rule.SameOrCut {α : Type} (lost : Except QueryError (Option Block) → Prop) (rule : Rule)
    (height : Height) (accepted : α) (r r' : Except CheckError α) : Prop :=
  r = r' ∨ ∃ found, lost found ∧ rule.Cut height accepted found r

namespace Rule

variable {α β : Type} {lost : Except QueryError (Option Block) → Prop} {rule : Rule}
  {height : Height}

theorem Cut.bind {a : α} {b : β} {found : Except QueryError (Option Block)}
    {r : Except CheckError α} {f : α → Except CheckError β} (h : rule.Cut height a found r)
    (hf : f a = .ok b) : rule.Cut height b found (r.bind f) := by
  cases h with
  | fault e => exact .fault e
  | short depth => exact .short depth
  | excused hrule =>
      show rule.Cut height b (.ok none) (f a)
      rw [hf]
      exact .excused hrule

theorem SameOrCut.bind {a : α} {b : β} {r r' : Except CheckError α}
    {f : α → Except CheckError β} (h : SameOrCut lost rule height a r r') (hf : f a = .ok b) :
    SameOrCut lost rule height b (r.bind f) (r'.bind f) := by
  rcases h with heq | ⟨found, hlost, hcut⟩
  · exact .inl (by rw [heq])
  · exact .inr ⟨found, hlost, hcut.bind hf⟩

/-- A lost lookup decides how the rule ends. -/
theorem SameOrCut.of_lost {accepted : α} {found : Except QueryError (Option Block)}
    {r r' : Except CheckError α} (hblock : ∀ b, ¬ lost (.ok (some b))) (hlost : lost found)
    (hfault : ∀ e, found = .error e → r = .error (.query e))
    (hnone : found = .ok none → rule.Cut height accepted (.ok none) r) :
    SameOrCut lost rule height accepted r r' := by
  rcases Store.lost_cases hblock hlost with ⟨e, rfl⟩ | rfl
  · rw [hfault e rfl]
    exact .inr ⟨_, hlost, .fault e⟩
  · exact .inr ⟨_, hlost, hnone rfl⟩

/-- A reading whose block is required ends the rule when it is lost. -/
theorem SameOrCut.requireBlock {accepted : α} {x y : Except QueryError (Option Block)}
    {depth : Nat} {f g : Block → Except CheckError α} (hblock : ∀ b, ¬ lost (.ok (some b)))
    (hxy : x = y ∨ lost x) (hfg : ∀ b, SameOrCut lost rule height accepted (f b) (g b)) :
    SameOrCut lost rule height accepted
      (requireBlock (.shortHistory rule height depth) x f)
      (requireBlock (.shortHistory rule height depth) y g) := by
  rcases hxy with rfl | hlost
  · cases x with
    | error e => exact .inl rfl
    | ok found =>
        cases found with
        | none => exact .inl rfl
        | some b => exact hfg b
  · refine .of_lost hblock hlost ?_ ?_
    · rintro e rfl
      rfl
    · rintro rfl
      exact .short depth

end Rule

/-! ## Every rule on its own -/

section
variable {lost : Except QueryError (Option Block) → Prop} {s t : Store}

theorem Retarget.demand_sameOrCut (h : t.LosesFrom lost s) (p : Params) (parent : Block) :
    Rule.SameOrCut lost .retarget parent.height.next .anything
      (Retarget.demand p t parent).result (Retarget.demand p s parent).result := by
  rw [result_demand, result_demand]
  exact .requireBlock h.no_block (h.back _ parent) fun _ => .inl rfl

theorem SlidingWindow.demand_sameOrCut (h : t.LosesFrom lost s) (p : Params) (parent : Block) :
    Rule.SameOrCut lost .slidingWindow parent.height.next .anything
      (SlidingWindow.demand p t parent).result (SlidingWindow.demand p s parent).result := by
  rw [result_demand, result_demand]
  exact .requireBlock h.no_block (h.suitable parent) fun last =>
    .requireBlock h.no_block (h.back _ parent) fun start =>
      .requireBlock h.no_block (h.suitable start) fun first => .inl rfl

theorem Emergency.demand_sameOrCut (h : t.LosesFrom lost s) (p : Params) (parent : Block) :
    Rule.SameOrCut lost .emergency parent.height.next .anything
      (Emergency.demand p t parent).result (Emergency.demand p s parent).result := by
  rw [result_demand, result_demand]
  rcases h.back depth parent with hback | hlost
  · rw [← hback]
    cases hfar : t.back depth parent with
    | error e => exact .inl rfl
    | ok found =>
        cases found with
        | none => exact .inl rfl
        | some far =>
            -- the guard has found a block, so nothing that the median times read is lost
            rw [gap_congr (h.sameWalk hfar)]
            exact .inl rfl
  · refine .of_lost h.no_block hlost ?_ ?_
    · intro e he
      rw [he]
    · intro hnone
      rw [hnone]
      exact .excused (.inl rfl)

theorem MinimalDifficulty.comingBack_sameOrCut (h : t.LosesFrom lost s) (p : Params)
    (parent : Block) (time : Timestamp) :
    Rule.SameOrCut lost .returnFromMinimal parent.height.next .anything
      (comingBack p t parent time).result (comingBack p s parent time).result := by
  rw [result_comingBack, result_comingBack]
  split
  · exact .inl rfl
  · rcases h.nearest (fun b => !p.inMinimalRun b) parent with hnearest | hlost
    · rw [hnearest]
      exact .inl rfl
    · refine .of_lost h.no_block hlost ?_ ?_
      · intro e he
        rw [he]
      · intro hnone
        rw [hnone]
        exact .excused (.inr rfl)

/-- What a rule demands on a store that has lost lookups: the same, or it ends on one of them. -/
theorem Rule.demand_sameOrCut (h : t.LosesFrom lost s) (p : Params) (parent : Block)
    (time : Timestamp) (rule : Rule) :
    rule.SameOrCut lost parent.height.next .anything
      (rule.demand p t parent time).result (rule.demand p s parent time).result := by
  cases rule with
  | retarget => exact Retarget.demand_sameOrCut h p parent
  | emergency => exact Emergency.demand_sameOrCut h p parent
  | slidingWindow => exact SlidingWindow.demand_sameOrCut h p parent
  | returnFromMinimal => exact MinimalDifficulty.comingBack_sameOrCut h p parent time
  | minimalAfterGap | stayMinimal | unchecked => exact .inl rfl

/-- The demand decides the verdict, and where nothing is demanded every block is accepted. -/
theorem Rule.check_sameOrCut (h : t.LosesFrom lost s) (p : Params) (parent : Block)
    (header : Header) (rule : Rule) :
    rule.SameOrCut lost parent.height.next ()
      (rule.check p t parent header).result (rule.check p s parent header).result := by
  rw [result_check, result_check]
  exact (demand_sameOrCut h p parent header.time rule).bind rfl

theorem checkSelected_sameOrCut (h : t.LosesFrom lost s) (p : Params) (parent : Block)
    (header : Header) :
    (p.ruleAt parent.height parent.bits header.time).SameOrCut lost parent.height.next ()
      (checkSelected p t parent header).result (checkSelected p s parent header).result := by
  rw [result_checkSelected, result_checkSelected]
  exact Rule.check_sameOrCut h p parent header _

end

/-! ## Pruned history -/

namespace Store

/-- Some of the blocks of `s` are not found in `t`; nothing else has changed. -/
def PrunedFrom (t s : Store) : Prop := ∀ id, t.get id = s.get id ∨ t.get id = .ok none

theorem PrunedFrom.losesFrom {s t : Store} (h : t.PrunedFrom s) :
    t.LosesFrom (· = .ok none) s :=
  ⟨h, fun _ hnone => nomatch hnone⟩

end Store

/-- Taking a block out of a table prunes its store. -/
theorem Table.erase_prunedFrom (table : Table) (id : Hash) :
    (table.erase id).store.PrunedFrom table.store := by
  intro id'
  have hfault : (table.erase id).fault? id' = table.fault? id' := rfl
  simp only [store, hfault, find?_erase]
  cases table.fault? id' with
  | some fault => exact .inl rfl
  | none =>
      by_cases hid : id = id'
      · exact .inr (by rw [if_pos hid])
      · exact .inl (by rw [if_neg hid])

/-- What is left of a verdict when the lost lookups find nothing. -/
theorem Rule.SameOrCut.of_none {rule : Rule} {height : Height} {r r' : Except CheckError Unit}
    (h : rule.SameOrCut (· = .ok none) height () r r') :
    (∀ e, r = .error e → r' = .error e ∨ ∃ depth, e = .shortHistory rule height depth) ∧
      (r = .ok () → r' = .ok () ∨ rule = .emergency ∨ rule = .returnFromMinimal) := by
  rcases h with rfl | ⟨found, rfl, hcut⟩
  · exact ⟨fun _ he => .inl he, .inl⟩
  · cases hcut with
    | short depth => exact ⟨fun _ he => .inr ⟨depth, by cases he; rfl⟩, fun hok => nomatch hok⟩
    | excused hrule => exact ⟨fun _ he => (nomatch he), fun _ => .inr hrule⟩

/-- **Forgetting history never makes a block bad.**  An error on the pruned store is that of the
full store, unless it reports missing history, and a block that only the pruned store accepts was
excused for its short history. -/
theorem verdict_of_pruned {s t : Store} (h : t.PrunedFrom s) (p : Params) (header : Header) :
    (∀ parent,
      (∀ e, (checkSelected p t parent header).result = .error e →
        (checkSelected p s parent header).result = .error e ∨
          ∃ depth, e = .shortHistory (p.ruleAt parent.height parent.bits header.time)
            parent.height.next depth) ∧
      ((checkSelected p t parent header).result = .ok () →
        (checkSelected p s parent header).result = .ok () ∨
          p.ruleAt parent.height parent.bits header.time = .emergency ∨
          p.ruleAt parent.height parent.bits header.time = .returnFromMinimal)) ∧
    (∀ e, (checkHeader p t header).result = .error e →
      (checkHeader p s header).result = .error e ∨
        e = .parentNotFound header.parent header.id ∨
        ∃ rule height depth, e = .shortHistory rule height depth) ∧
    ((checkHeader p t header).result = .ok () →
      (checkHeader p s header).result = .ok () ∨
        ∃ parent, loadParent s header = .ok parent ∧
          (p.ruleAt parent.height parent.bits header.time = .emergency ∨
            p.ruleAt parent.height parent.bits header.time = .returnFromMinimal)) := by
  have hselected (parent : Block) :=
    (checkSelected_sameOrCut h.losesFrom p parent header).of_none
  refine ⟨hselected, ?_⟩
  rw [result_checkHeader, result_checkHeader]
  rcases h header.parent with hget | hget
  · have hload : loadParent t header = loadParent s header := by rw [loadParent, loadParent, hget]
    rw [hload]
    cases loadParent s header with
    | error e => exact ⟨fun _ he => .inl he, .inl⟩
    | ok parent =>
        constructor
        · intro e he
          rcases (hselected parent).1 e he with hs | ⟨depth, hshort⟩
          · exact .inl hs
          · exact .inr (.inr ⟨_, _, depth, hshort⟩)
        · intro hok
          rcases (hselected parent).2 hok with hs | hrule
          · exact .inl hs
          · exact .inr ⟨parent, rfl, hrule⟩
  · have hload : loadParent t header = .error (.parentNotFound header.parent header.id) := by
      rw [loadParent, hget]
    rw [hload]
    exact ⟨fun _ he => .inr (.inl (by cases he; rfl)), fun hok => nomatch hok⟩

/-- The block below the last real one is pruned, and a minimal block is the same violation. -/
theorem verdict_of_pruned_minimalRun :
    (checkHeader lenientTestnet
        ((Table.steady 600 minimalRunBits 8).erase (.ofWord 4 (by decide))).store
        (Table.steadyBlock 600 minimalRunBits 8).toHeader).result =
      .error (.violation .returnFromMinimal ⟨8, by decide⟩
        (.mismatch .returned (minimalRunBits 4) (minimalRunBits 8))) ∧
    (checkHeader lenientTestnet (Table.steady 600 minimalRunBits 8).store
        (Table.steadyBlock 600 minimalRunBits 8).toHeader).result =
      .error (.violation .returnFromMinimal ⟨8, by decide⟩
        (.mismatch .returned (minimalRunBits 4) (minimalRunBits 8))) := by
  have hpruned := Table.erase_prunedFrom (Table.steady 600 minimalRunBits 8) (.ofWord 4 (by decide))
  refine (and_iff_left_of_imp fun ht => ?_).2 (by decide +kernel)
  rcases (verdict_of_pruned hpruned _ _).2.1 _ ht with hs | hlost | ⟨_, _, _, hshort⟩
  · exact hs
  · cases hlost
  · cases hshort

/-- Without the last real block the same minimal block is excused. -/
example :
    (checkHeader lenientTestnet
        ((Table.steady 600 minimalRunBits 8).erase (.ofWord 5 (by decide))).store
        (Table.steadyBlock 600 minimalRunBits 8).toHeader).result = .ok () := by
  decide +kernel

/-! ## Storage faults -/

/-- The store `s`, with lookups of some names failing. -/
def Store.withFaults (s : Store) (faults : Hash → Option QueryError) : Store where
  get id :=
    match faults id with
    | some e => .error e
    | none => s.get id

theorem Store.withFaults_losesFrom (s : Store) (faults : Hash → Option QueryError) :
    (s.withFaults faults).LosesFrom (fun found => ∃ id e, faults id = some e ∧ found = .error e)
      s where
  get id := by
    cases hid : faults id with
    | none => exact .inl (by simp only [withFaults, hid])
    | some e => exact .inr ⟨id, e, hid, by simp only [withFaults, hid]⟩
  no_block b := fun ⟨_, _, _, hfound⟩ => nomatch hfound

/-- What is left of a verdict when the lost lookups fail. -/
theorem Rule.SameOrCut.of_faults {faults : Hash → Option QueryError} {rule : Rule}
    {height : Height} {r r' : Except CheckError Unit}
    (h : rule.SameOrCut (fun found => ∃ id e, faults id = some e ∧ found = .error e)
      height () r r') :
    r = r' ∨ ∃ id e, faults id = some e ∧ r = .error (.query e) := by
  rcases h with heq | ⟨_, ⟨id, e, hid, rfl⟩, hcut⟩
  · exact .inl heq
  · cases hcut with
    | fault => exact .inr ⟨id, e, hid, rfl⟩

/-- **Storage faults never change a verdict.**  When lookups fail, a check ends as it would
have ended otherwise, or it reports the failure of one of them. -/
theorem verdict_of_faults (s : Store) (faults : Hash → Option QueryError) (p : Params)
    (header : Header) :
    (∀ parent,
      (∀ rule : Rule,
        (rule.check p (s.withFaults faults) parent header).result =
            (rule.check p s parent header).result ∨
          ∃ id e, faults id = some e ∧
            (rule.check p (s.withFaults faults) parent header).result = .error (.query e)) ∧
      ((checkSelected p (s.withFaults faults) parent header).result =
          (checkSelected p s parent header).result ∨
        ∃ id e, faults id = some e ∧
          (checkSelected p (s.withFaults faults) parent header).result = .error (.query e))) ∧
    ((checkHeader p (s.withFaults faults) header).result = (checkHeader p s header).result ∨
      (∃ id e, faults id = some e ∧
        (checkHeader p (s.withFaults faults) header).result = .error (.query e)) ∨
      ∃ e, faults header.parent = some e ∧
        (checkHeader p (s.withFaults faults) header).result =
          .error (.parentNotRead header.parent header.id e)) := by
  have hloss := s.withFaults_losesFrom faults
  have hselected (parent : Block) :=
    (checkSelected_sameOrCut hloss p parent header).of_faults
  refine ⟨fun parent => ⟨fun rule => ?_, hselected parent⟩, ?_⟩
  · exact (Rule.check_sameOrCut hloss p parent header rule).of_faults
  · rw [result_checkHeader, result_checkHeader]
    cases hid : faults header.parent with
    | none =>
        have hget : (s.withFaults faults).get header.parent = s.get header.parent := by
          simp only [Store.withFaults, hid]
        have hload : loadParent (s.withFaults faults) header = loadParent s header := by
          rw [loadParent, loadParent, hget]
        rw [hload]
        cases loadParent s header with
        | error e => exact .inl rfl
        | ok parent =>
            rcases hselected parent with heq | hfault
            · exact .inl heq
            · exact .inr (.inl hfault)
    | some e =>
        have hget : (s.withFaults faults).get header.parent = .error e := by
          simp only [Store.withFaults, hid]
        exact .inr (.inr ⟨e, rfl, by rw [loadParent, hget]; rfl⟩)

end DifficultyRules
