import ProjectFile.Text.Basic

/-!
Results that come with a log. A `Logged` value carries the events that were recorded on the way to
it, and an `Attempt` may fail without losing them. Taking the result forgets the log, and does so
step by step: the result of a sequence of steps is the sequence of their results.
-/

namespace ProjectFile

inductive Level where
  | trace
  | debug
  | info
  | warn
  | error
deriving DecidableEq

namespace Level

def name : Level → Text
  | .trace => "TRACE"
  | .debug => "DEBUG"
  | .info => "INFO"
  | .warn => "WARN"
  | .error => "ERROR"

/-- The place of the level in the order of importance. -/
def rank : Level → Nat
  | .trace => 0
  | .debug => 1
  | .info => 2
  | .warn => 3
  | .error => 4

def ofName? (t : Text) : Option Level :=
  let name := t.toLower
  if name = "trace" then some .trace
  else if name = "debug" then some .debug
  else if name = "info" then some .info
  else if name = "warn" then some .warn
  else if name = "error" then some .error
  else none

end Level

inductive FieldValue where
  | text (t : Text)
  | number (n : Nat)
deriving DecidableEq

structure Event where
  level : Level
  message : Text
  fields : List (Text × FieldValue)
deriving DecidableEq

/-- A value with the events recorded on the way to it. -/
structure Logged (α : Type) where
  value : α
  events : List Event

namespace Logged

instance : Monad Logged where
  pure a := ⟨a, []⟩
  bind x f :=
    let y := f x.value
    ⟨y.value, x.events ++ y.events⟩

instance : LawfulMonad Logged := LawfulMonad.mk' Logged
  (by intro α x; cases x; simp [Functor.map])
  (by intro α β x f; simp [Bind.bind, Pure.pure])
  (by intro α β γ x f g; simp [Bind.bind])

def recordAll (events : List Event) : Logged Unit := ⟨(), events⟩

@[simp] theorem value_pure {α : Type} (a : α) : (pure a : Logged α).value = a := rfl

@[simp] theorem value_bind {α β : Type} (x : Logged α) (f : α → Logged β) :
    (x >>= f).value = (f x.value).value := rfl

end Logged

instance decidableEqExcept {ε α : Type} [DecidableEq ε] [DecidableEq α] :
    DecidableEq (Except ε α)
  | .ok a, .ok b => decidable_of_iff (a = b) (by simp)
  | .error a, .error b => decidable_of_iff (a = b) (by simp)
  | .ok _, .error _ => isFalse (by simp)
  | .error _, .ok _ => isFalse (by simp)

section

variable {ε α β : Type} {x : Except ε α}

/-- What two steps give is given by the second of what the first gives. -/
theorem Except.bind_eq_ok_iff {f : α → Except ε β} {b : β} :
    x.bind f = .ok b ↔ ∃ a, x = .ok a ∧ f a = .ok b := by
  cases x with
  | error e => simp [Except.bind]
  | ok a => simp [Except.bind]

theorem Except.map_eq_ok_iff {f : α → β} {b : β} :
    x.map f = .ok b ↔ ∃ a, x = .ok a ∧ f a = b := by
  cases x with
  | error e => simp [Except.map]
  | ok a => simp [Except.map]

theorem Except.map_eq_error_iff {f : α → β} {e : ε} : x.map f = .error e ↔ x = .error e := by
  cases x with
  | error e => simp [Except.map]
  | ok a => simp [Except.map]

end

theorem Except.mapError_eq_ok_iff {ε δ α : Type} {x : Except ε α} {f : ε → δ} {a : α} :
    x.mapError f = .ok a ↔ x = .ok a := by
  cases x with
  | error e =>
    constructor <;>
    · intro h
      cases h
  | ok b =>
    constructor <;>
    · intro h
      cases h
      rfl

/-- Steps that are logged and may fail. -/
abbrev Attempt (ε α : Type) := ExceptT ε Logged α

namespace Attempt

variable {ε α β : Type}

/-- How the attempt ends, the log forgotten. -/
def result (x : Attempt ε α) : Except ε α := x.run.value

/-- The events recorded up to the end, whether it is a success or a failure. -/
def events (x : Attempt ε α) : List Event := x.run.events

/-- An attempt with a known end and nothing to log. -/
def ofExcept (x : Except ε α) : Attempt ε α := ExceptT.mk (pure x)

def recordAll (events : List Event) : Attempt ε Unit := ExceptT.lift (Logged.recordAll events)

def record (e : Event) : Attempt ε Unit := recordAll [e]

/-- The end of one attempt as the value of another, which goes on either way. -/
def outcome {δ : Type} (x : Attempt δ α) : Attempt ε (Except δ α) := ExceptT.lift x.run

/-- The attempt with its failure told in other terms. -/
def mapError {δ : Type} (f : ε → δ) (x : Attempt ε α) : Attempt δ α :=
  ExceptT.mk (Except.mapError f <$> x.run)

@[simp] theorem result_pure (a : α) : result (pure a : Attempt ε α) = .ok a := rfl

@[simp] theorem result_throw (e : ε) : result (throw e : Attempt ε α) = .error e := rfl

@[simp] theorem result_ofExcept (x : Except ε α) : (ofExcept x).result = x := rfl

@[simp] theorem result_recordAll (events : List Event) :
    (recordAll events : Attempt ε Unit).result = .ok () := rfl

@[simp] theorem result_record (e : Event) : (record e : Attempt ε Unit).result = .ok () := rfl

@[simp] theorem result_outcome {δ : Type} (x : Attempt δ α) :
    (outcome x : Attempt ε (Except δ α)).result = .ok x.result := rfl

@[simp] theorem result_mapError {δ : Type} (f : ε → δ) (x : Attempt ε α) :
    (x.mapError f).result = x.result.mapError f := rfl

@[simp] theorem result_bind (x : Attempt ε α) (f : α → Attempt ε β) :
    (x >>= f).result = x.result.bind fun a => (f a).result := by
  unfold result
  change (x.run >>= fun r => match r with
    | .ok a => (f a).run
    | .error e => pure (.error e)).value = _
  rw [Logged.value_bind]
  cases x.run.value <;> rfl

@[simp] theorem events_pure (a : α) : (pure a : Attempt ε α).events = [] := rfl

/-- What is recorded comes before what is recorded later. -/
theorem events_recordAll_bind (events : List Event) (f : Unit → Attempt ε α) :
    (recordAll events >>= f).events = events ++ (f ()).events := by
  change events ++ [] ++ (f ()).events = _
  rw [List.append_nil]

theorem ofExcept_ok_bind (a : α) (f : α → Attempt ε β) : (ofExcept (.ok a) >>= f) = f a := rfl

/-- After a failure nothing else is attempted. -/
theorem ofExcept_error_bind (e : ε) (f : α → Attempt ε β) :
    (ofExcept (.error e) >>= f) = ofExcept (.error e) := rfl

@[simp] theorem result_map (f : α → β) (x : Attempt ε α) : (f <$> x).result = x.result.map f := by
  rw [← bind_pure_comp, result_bind]
  cases x.result <;> rfl

end Attempt

end ProjectFile
