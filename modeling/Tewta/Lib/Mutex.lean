import Mathlib.Logic.Function.Basic

/-!
# A mutex whose lock is a future

Tasks ask for the lock by polling a future of it.  A poll takes a lock that is free, or leaves
the future pending; it may do the latter also where the lock is free.  A task with a pending
future waits, until a later poll takes the lock.  Who holds the lock drops it with a new value,
and this wakes all who wait.
-/

universe u v

structure Mutex (τ : Type u) (α : Type v) where
  value : α
  holder : Option τ
  /-- whose futures are pending -/
  waiting : τ → Bool

namespace Mutex

variable {τ : Type u} {α : Type v} [DecidableEq τ]

/-- A mutex that nobody has asked for. -/
def new (a : α) : Mutex τ α := ⟨a, none, fun _ => false⟩

/-- A poll that takes the lock. -/
def lock (m : Mutex τ α) (t : τ) : Option (Mutex τ α) :=
  if m.holder = none then some ⟨m.value, some t, Function.update m.waiting t false⟩ else none

/-- A poll that leaves the future pending. -/
def wait (m : Mutex τ α) (t : τ) : Mutex τ α :=
  { m with waiting := Function.update m.waiting t true }

/-- The guard is dropped. -/
def unlock (m : Mutex τ α) (a : α) : Mutex τ α := { m with value := a, holder := none }

/-- A poll that takes the lock changes nothing for the others. -/
theorem lock_eq_some {m n : Mutex τ α} {t : τ} (h : m.lock t = some n) :
    m.holder = none ∧ n.value = m.value ∧ n.holder = some t ∧ n.waiting t = false ∧
      ∀ u ≠ t, n.waiting u = m.waiting u := by
  rw [lock] at h
  split at h
  · rename_i hfree
    cases h
    exact ⟨hfree, rfl, rfl, Function.update_self _ _ _,
      fun u hu => Function.update_of_ne hu _ _⟩
  · cases h

@[simp] theorem waiting_wait_self (m : Mutex τ α) (t : τ) : (m.wait t).waiting t = true :=
  Function.update_self _ _ _

theorem waiting_wait_of_ne (m : Mutex τ α) {t u : τ} (h : u ≠ t) :
    (m.wait t).waiting u = m.waiting u := Function.update_of_ne h _ _

end Mutex
