import Mathlib.Logic.Basic

/-!
# Functions that fail or panic

An `Outcome` is what comes of a call: a value, an error that the caller can handle, or a panic.
`bind` is the question mark operator: the next call is made with the value, and an error or a
panic is passed on.

A `Traced` call notes things on its way.  What it has noted is there whatever comes of it, and
without the notes it is an ordinary call (`outcome_bind`).
-/

universe u v w

inductive Outcome (ε : Type u) (α : Type v)
  | ok (a : α)
  | err (e : ε)
  | panicked
  deriving DecidableEq

namespace Outcome

variable {ε : Type u} {ε' : Type w} {α β : Type v}

def bind (x : Outcome ε α) (f : α → Outcome ε β) : Outcome ε β :=
  match x with
  | .ok a => f a
  | .err e => .err e
  | .panicked => .panicked

instance : Monad (Outcome ε) where
  pure := .ok
  bind := bind

/-- The error is replaced. -/
def mapErr (f : ε → ε') : Outcome ε α → Outcome ε' α
  | .ok a => .ok a
  | .err e => .err (f e)
  | .panicked => .panicked

/-- A value that must be there. -/
def unwrap : Option α → Outcome ε α
  | some a => .ok a
  | none => .panicked

theorem bind_eq (x : Outcome ε α) (f : α → Outcome ε β) : (x >>= f) = x.bind f := rfl

theorem unwrap_eq_ok {x : Option α} {a : α} : (unwrap x : Outcome ε α) = .ok a ↔ x = some a := by
  cases x with
  | some b => simp [unwrap]
  | none => simp [unwrap]

theorem unwrap_eq_panicked {x : Option α} : (unwrap x : Outcome ε α) = .panicked ↔ x = none := by
  cases x with
  | some b => simp [unwrap]
  | none => simp [unwrap]

theorem bind_eq_ok {x : Outcome ε α} {f : α → Outcome ε β} {b : β} :
    x.bind f = .ok b ↔ ∃ a, x = .ok a ∧ f a = .ok b := by
  cases x with
  | ok a => simp [bind]
  | err e => simp [bind]
  | panicked => simp [bind]

theorem bind_eq_panicked {x : Outcome ε α} {f : α → Outcome ε β} :
    x.bind f = .panicked ↔ x = .panicked ∨ ∃ a, x = .ok a ∧ f a = .panicked := by
  cases x with
  | ok a => simp [bind]
  | err e => simp [bind]
  | panicked => simp [bind]

theorem mapErr_eq_ok {f : ε → ε'} {x : Outcome ε α} {a : α} : x.mapErr f = .ok a ↔ x = .ok a := by
  cases x with
  | ok b => simp [mapErr]
  | err e => simp [mapErr]
  | panicked => simp [mapErr]

theorem mapErr_eq_panicked {f : ε → ε'} {x : Outcome ε α} :
    x.mapErr f = .panicked ↔ x = .panicked := by
  cases x with
  | ok b => simp [mapErr]
  | err e => simp [mapErr]
  | panicked => simp [mapErr]

end Outcome

/-- What a call has noted, and what comes of it. -/
structure Traced (τ : Type w) (ε : Type u) (α : Type v) where
  trace : List τ
  outcome : Outcome ε α

namespace Traced

universe w'

variable {τ : Type w} {ε : Type u} {ε' : Type w'} {α β : Type v}

def bind (x : Traced τ ε α) (f : α → Traced τ ε β) : Traced τ ε β :=
  match x.outcome with
  | .ok a => ⟨x.trace ++ (f a).trace, (f a).outcome⟩
  | .err e => ⟨x.trace, .err e⟩
  | .panicked => ⟨x.trace, .panicked⟩

/-- A call that notes nothing. -/
def of (x : Outcome ε α) : Traced τ ε α := ⟨[], x⟩

instance : Monad (Traced τ ε) where
  pure a := of (.ok a)
  bind := bind

def note (t : τ) : Traced τ ε PUnit := ⟨[t], .ok ⟨⟩⟩

/-- The error is replaced. -/
def mapErr (f : ε → ε') (x : Traced τ ε α) : Traced τ ε' α := ⟨x.trace, x.outcome.mapErr f⟩

theorem outcome_mapErr (f : ε → ε') (x : Traced τ ε α) :
    (x.mapErr f).outcome = x.outcome.mapErr f := rfl

theorem outcome_note_bind (t : τ) (f : PUnit → Traced τ ε α) :
    (note t >>= f).outcome = (f ⟨⟩).outcome := rfl

theorem outcome_bind (x : Traced τ ε α) (f : α → Traced τ ε β) :
    (x >>= f).outcome = x.outcome >>= fun a => (f a).outcome := by
  obtain ⟨trace, outcome⟩ := x
  cases outcome with
  | ok a => rfl
  | err e => rfl
  | panicked => rfl

/-- **What the steps note**, the whole notes. -/
theorem forall_mem_trace_bind {P : τ → Prop} {x : Traced τ ε α} {f : α → Traced τ ε β}
    (hx : ∀ t ∈ x.trace, P t) (hf : ∀ a, x.outcome = .ok a → ∀ t ∈ (f a).trace, P t) :
    ∀ t ∈ (x >>= f).trace, P t := by
  obtain ⟨trace, outcome⟩ := x
  cases outcome with
  | ok a => exact List.forall_mem_append.mpr ⟨hx, hf a rfl⟩
  | err e => exact hx
  | panicked => exact hx

end Traced
