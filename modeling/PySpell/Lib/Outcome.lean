/-
# Outcomes of a computation that may fail, panic or run out of fuel

A function of a language with recoverable errors and unrecoverable panics
returns a value, returns an error, or panics.  A recursive-descent function that
is written with a fuel argument has a fourth way to end, `outOfFuel`, which a
caller rules out by a bound on its input.

`Outcome` is a monad: an error, a panic and an exhausted fuel all cut the rest
of the computation off.  `Returns` says that a computation came back to its
caller, with a value or with an error.
-/
import Mathlib.Algebra.Order.Ring.Int

/-- How a computation ends. -/
inductive Outcome (ε α : Type) where
  | ok (a : α)
  | err (e : ε)
  | panic
  | outOfFuel
  deriving DecidableEq, Repr

namespace Outcome

variable {ε α β : Type}

/-- Sequencing: only a value is passed on. -/
def bind (x : Outcome ε α) (f : α → Outcome ε β) : Outcome ε β :=
  match x with
  | ok a => f a
  | err e => err e
  | panic => panic
  | outOfFuel => outOfFuel

instance : Monad (Outcome ε) where
  pure := ok
  bind := bind

@[simp] theorem pure_eq (a : α) : (pure a : Outcome ε α) = ok a := rfl
@[simp] theorem ok_bind (a : α) (f : α → Outcome ε β) : (ok a >>= f) = f a := rfl
@[simp] theorem err_bind (e : ε) (f : α → Outcome ε β) : (err e >>= f) = err e := rfl
@[simp] theorem panic_bind (f : α → Outcome ε β) : (panic >>= f) = panic := rfl
@[simp] theorem outOfFuel_bind (f : α → Outcome ε β) : (outOfFuel >>= f) = outOfFuel := rfl

/-- A sequence yields a value exactly when both parts do. -/
theorem bind_eq_ok {x : Outcome ε α} {f : α → Outcome ε β} {b : β} :
    (x >>= f) = ok b ↔ ∃ a, x = ok a ∧ f a = ok b := by
  cases x <;> simp

/-- The computation came back to its caller. -/
def Returns : Outcome ε α → Prop
  | ok _ => True
  | err _ => True
  | panic => False
  | outOfFuel => False

@[simp] theorem returns_ok (a : α) : (ok a : Outcome ε α).Returns := trivial
@[simp] theorem returns_err (e : ε) : (err e : Outcome ε α).Returns := trivial
@[simp] theorem not_returns_panic : ¬ (panic : Outcome ε α).Returns := id
@[simp] theorem not_returns_outOfFuel : ¬ (outOfFuel : Outcome ε α).Returns := id

instance : DecidablePred (Returns : Outcome ε α → Prop) := fun x =>
  match x with
  | ok _ => isTrue trivial
  | err _ => isTrue trivial
  | panic => isFalse id
  | outOfFuel => isFalse id

/-- To return is to end with a value or with an error. -/
theorem returns_iff (x : Outcome ε α) : x.Returns ↔ (∃ a, x = ok a) ∨ ∃ e, x = err e := by
  cases x <;> simp

/-- A sequence returns when its first part does and its second part does on
the value of the first. -/
theorem returns_bind {x : Outcome ε α} {f : α → Outcome ε β} :
    (x >>= f).Returns ↔ x.Returns ∧ ∀ a, x = ok a → (f a).Returns := by
  cases x <;> simp

@[simp] theorem map_returns_iff {f : α → β} {x : Outcome ε α} : (f <$> x).Returns ↔ x.Returns := by
  cases x <;> exact Iff.rfl

/-- The value, if there is one. -/
def toOption : Outcome ε α → Option α
  | ok a => some a
  | _ => none

theorem toOption_eq_some {x : Outcome ε α} {a : α} : x.toOption = some a ↔ x = ok a := by
  cases x <;> simp [toOption]

@[simp] theorem toOption_ok (a : α) : (ok a : Outcome ε α).toOption = some a := rfl
@[simp] theorem toOption_err (e : ε) : (err e : Outcome ε α).toOption = none := rfl

/-- The value of a sequence. -/
theorem toOption_bind (x : Outcome ε α) (f : α → Outcome ε β) :
    (x >>= f).toOption = x.toOption.bind fun a => (f a).toOption := by
  cases x <;> rfl

/-- `Option::unwrap`: the missing case is a panic. -/
def unwrap : Option α → Outcome ε α
  | some a => ok a
  | none => panic

@[simp] theorem unwrap_some (a : α) : (unwrap (some a) : Outcome ε α) = ok a := rfl
@[simp] theorem unwrap_none : (unwrap (none : Option α) : Outcome ε α) = panic := rfl

theorem unwrap_eq_ok {x : Option α} {a : α} :
    (unwrap x : Outcome ε α) = ok a ↔ x = some a := by
  cases x <;> simp

/-- A result type without panics is an outcome. -/
def ofExcept : Except ε α → Outcome ε α
  | .ok a => ok a
  | .error e => err e

@[simp] theorem ofExcept_ok (a : α) : (ofExcept (.ok a) : Outcome ε α) = ok a := rfl
@[simp] theorem ofExcept_error (e : ε) : (ofExcept (.error e) : Outcome ε α) = err e := rfl

@[simp] theorem returns_ofExcept (x : Except ε α) : (ofExcept x).Returns := by
  cases x <;> trivial

end Outcome
