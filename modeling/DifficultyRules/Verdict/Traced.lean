/-
# `DifficultyRules.Verdict.Traced` — a check together with its log

A traced computation has a result, or the error that ended it, and the events
of its course in order.  Events that came before an error are kept.

The main statements are `result_bind` and `events_bind`.  By the first, the
results of traced computations follow one another as those of plain ones do,
so that a statement about verdicts may forget the log.
-/
import DifficultyRules.Verdict.Error
import DifficultyRules.Verdict.Event

namespace DifficultyRules

@[ext] structure Traced (α : Type) where
  result : Except CheckError α
  events : List Event

namespace Traced

def ofExcept {α : Type} (r : Except CheckError α) : Traced α := ⟨r, []⟩

def fail {α : Type} (e : CheckError) : Traced α := ⟨.error e, []⟩

def emit (e : Event) : Traced Unit := ⟨.ok (), [e]⟩

/-- The answer of a store, or its error as the check's. -/
def query {α : Type} : Except QueryError α → Traced α
  | .ok a => ⟨.ok a, []⟩
  | .error e => fail (.query e)

/-- The value, or the error that its absence is. -/
def require {α : Type} (e : CheckError) : Option α → Traced α
  | some a => ⟨.ok a, []⟩
  | none => fail e

/-- First `x`, then, unless it failed, what `f` makes of its result. -/
def andThen {α β : Type} (x : Traced α) (f : α → Traced β) : Traced β :=
  match x.result with
  | .error e => ⟨.error e, x.events⟩
  | .ok a => ⟨(f a).result, x.events ++ (f a).events⟩

instance : Monad Traced where
  pure a := ⟨.ok a, []⟩
  bind := andThen

@[simp] theorem result_pure {α : Type} (a : α) : (pure a : Traced α).result = .ok a := rfl

@[simp] theorem events_pure {α : Type} (a : α) : (pure a : Traced α).events = [] := rfl

@[simp] theorem result_fail {α : Type} (e : CheckError) :
    (fail e : Traced α).result = .error e := rfl

@[simp] theorem events_fail {α : Type} (e : CheckError) : (fail e : Traced α).events = [] := rfl

@[simp] theorem result_ofExcept {α : Type} (r : Except CheckError α) :
    (ofExcept r).result = r := rfl

@[simp] theorem events_ofExcept {α : Type} (r : Except CheckError α) :
    (ofExcept r).events = [] := rfl

@[simp] theorem result_query {α : Type} (r : Except QueryError α) :
    (query r).result = r.mapError .query := by
  cases r <;> rfl

@[simp] theorem events_query {α : Type} (r : Except QueryError α) : (query r).events = [] := by
  cases r <;> rfl

@[simp] theorem events_require {α : Type} (e : CheckError) (a : Option α) :
    (require e a).events = [] := by
  cases a <;> rfl

@[simp] theorem query_ok {α : Type} (a : α) : query (.ok a) = pure a := rfl

@[simp] theorem query_error {α : Type} (e : QueryError) :
    query (.error e : Except QueryError α) = fail (.query e) := rfl

@[simp] theorem require_some {α : Type} (e : CheckError) (a : α) :
    require e (some a) = pure a := rfl

@[simp] theorem require_none {α : Type} (e : CheckError) :
    require e (none : Option α) = fail e := rfl

@[simp] theorem result_emit (e : Event) : (emit e).result = .ok () := rfl

@[simp] theorem events_emit (e : Event) : (emit e).events = [e] := rfl

/-- The log plays no part in the result. -/
theorem result_bind {α β : Type} (x : Traced α) (f : α → Traced β) :
    (x >>= f).result = x.result.bind fun a => (f a).result := by
  show (andThen x f).result = _
  simp only [andThen]
  cases x.result <;> rfl

/-- A computation that goes on appends to the log; one that failed has nothing to add. -/
theorem events_bind {α β : Type} (x : Traced α) (f : α → Traced β) :
    (x >>= f).events = x.events ++
      match x.result with
      | .error _ => []
      | .ok a => (f a).events := by
  show (andThen x f).events = _
  rw [andThen]
  cases x.result <;> simp

theorem bind_of_ok {α β : Type} {x : Traced α} {a : α} (h : x.result = .ok a)
    (f : α → Traced β) : x >>= f = ⟨(f a).result, x.events ++ (f a).events⟩ := by
  show andThen x f = _
  simp only [andThen, h]

theorem bind_of_error {α β : Type} {x : Traced α} {e : CheckError} (h : x.result = .error e)
    (f : α → Traced β) : x >>= f = ⟨.error e, x.events⟩ := by
  show andThen x f = _
  simp only [andThen, h]

@[simp] theorem fail_bind {α β : Type} (e : CheckError) (f : α → Traced β) :
    fail e >>= f = fail e := rfl

instance : LawfulMonad Traced :=
  LawfulMonad.mk' Traced
    (fun x => by
      show andThen x _ = x
      cases x with | mk r es => cases r <;> simp [andThen])
    (fun a f => by
      show andThen ⟨.ok a, []⟩ f = f a
      simp [andThen])
    (fun x f g => by
      show andThen (andThen x f) g = andThen x fun a => andThen (f a) g
      simp only [andThen]
      cases x.result with
      | error e => rfl
      | ok a => simp only; cases (f a).result <;> simp)

end Traced
end DifficultyRules
