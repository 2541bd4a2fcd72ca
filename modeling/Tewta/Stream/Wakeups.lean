import Tewta.Stream

/-!
# Wake-ups on the test stream

A read half whose call has returned `Pending` sleeps until its waker is called.  Its waker is
then stored, or it waits for the mutex of the waker and is woken when the write half drops it
(`Covered`).  So the wake step of a write wakes it, and as long as it sleeps with nothing under
way there is nothing to read (`no_lost_wakeup`).

It may also sleep because it waits for the mutex of the data, which an append holds.  Then there
may be bytes that were written before, until the append drops the mutex and wakes it.
-/

namespace Tewta

open Transition

/-- The points of a call behind the registration of its waker. -/
def ReadPoint.registered : ReadPoint → Bool
  | .lockingData | .checking => true
  | .idle | .lockingWaker | .settingWaker => false

namespace StreamState

variable {Waker : Type}

/-- The last call has returned `Pending`, and its waker was not called since. -/
structure Sleeping (s : StreamState Waker) : Prop where
  point : s.reader.point = .idle
  returned : s.reader.returned = some .pending
  woken : s.reader.woken = false

/-- A wake step reaches the read half. -/
def Covered (s : StreamState Waker) : Prop :=
  (∃ waker, s.waker.value = some waker ∧ s.reader.cx = some waker) ∨ s.waker.waiting .read = true

structure Wakeable (s : StreamState Waker) : Prop where
  inv : s.writer.Inv
  cx : s.reader.point ≠ .idle → s.reader.cx ≠ none
  covered : s.reader.point.registered = true ∨ s.Sleeping → s.Covered
  empty : s.Sleeping →
    s.data.value = [] ∨ s.writer.wrote = true ∨ s.data.waiting .read = true

theorem wakeable_new : (new : StreamState Waker).Wakeable where
  inv := inv_new
  cx h := absurd rfl h
  covered h := by
    rcases h with h | h
    · cases h
    · cases h.returned
  empty h := nomatch h.returned

theorem Wakeable.of_writer {s t : StreamState Waker} (h : s.Wakeable) (hinv : t.writer.Inv)
    (hreader : t.reader = s.reader) (hwaker : t.waker.value = s.waker.value)
    (hwaiting : t.waker.waiting .read = s.waker.waiting .read)
    (hdata : t.data.value = s.data.value)
    (hwaiting' : t.data.waiting .read = s.data.waiting .read)
    (hwrote : t.writer.wrote = s.writer.wrote) : t.Wakeable := by
  have hsleeping : t.Sleeping → s.Sleeping := by
    rintro ⟨hpoint, hreturned, hwoken⟩
    rw [hreader] at hpoint hreturned hwoken
    exact ⟨hpoint, hreturned, hwoken⟩
  refine ⟨hinv, ?_, fun hs => ?_, fun hs => ?_⟩
  · rw [hreader]
    exact h.cx
  · rw [Covered, hreader, hwaker, hwaiting]
    rw [hreader] at hs
    exact h.covered (hs.imp_right hsleeping)
  · rw [hdata, hwaiting', hwrote]
    exact h.empty (hsleeping hs)

theorem Wakeable.of_awake {s : StreamState Waker} (hinv : s.writer.Inv)
    (hcx : s.reader.point ≠ .idle → s.reader.cx ≠ none)
    (hregistered : s.reader.point.registered = true → s.Covered) (hawake : ¬ s.Sleeping) :
    s.Wakeable :=
  ⟨hinv, hcx, fun h => h.elim hregistered fun hs => absurd hs hawake, fun hs => absurd hs hawake⟩

variable [DecidableEq Waker]

theorem reader_wakeStored (s : StreamState Waker) :
    s.wakeStored.reader.point = s.reader.point ∧ s.wakeStored.reader.cx = s.reader.cx ∧
      s.wakeStored.reader.returned = s.reader.returned ∧
        (s.wakeStored.reader.woken = false → s.reader.woken = false) := by
  rw [wakeStored]
  split
  · exact ⟨rfl, rfl, rfl, fun h => (Bool.or_eq_false_iff.mp h).1⟩
  · exact ⟨rfl, rfl, rfl, id⟩

/-- **A wake step wakes** a read half that it reaches. -/
theorem Covered.woken {s : StreamState Waker} (h : s.Covered) :
    (s.wakeStored.reader.woken || s.waker.waiting .read) = true := by
  rcases h with ⟨waker, hwaker, hcx⟩ | hwaiting
  · rw [wakeStored, hwaker]
    simp [hcx]
  · rw [hwaiting, Bool.or_true]

theorem Wakeable.step {s t : StreamState Waker} {l : StreamLabel Waker} (h : s.Wakeable)
    (hstep : s.step l = some t) : t.Wakeable := by
  have hinv := inv_step h.inv hstep
  cases steps_of_step hstep with
  | pollRead cx remaining hpoint =>
    exact .of_awake hinv (fun _ => Option.some_ne_none _) (fun hs => nomatch hs)
      fun hs => nomatch hs.point
  | readLockWaker hpoint hlock =>
    exact .of_awake hinv (fun _ => h.cx (by rw [hpoint]; decide)) (fun hs => nomatch hs)
      fun hs => nomatch hs.point
  | readPendWaker hpoint =>
    exact .of_awake hinv (fun _ => h.cx (by rw [hpoint]; decide))
      (fun _ => Or.inr (Mutex.waiting_wait_self _ _)) fun hs => nomatch hs.point
  | readSetWaker hpoint =>
    obtain ⟨waker, hcx⟩ := Option.ne_none_iff_exists'.mp (h.cx (by rw [hpoint]; decide))
    exact .of_awake hinv (fun _ => h.cx (by rw [hpoint]; decide))
      (fun _ => Or.inl ⟨waker, hcx, hcx⟩) fun hs => nomatch hs.point
  | readLockData hpoint hlock =>
    exact .of_awake hinv (fun _ => h.cx (by rw [hpoint]; decide))
      (fun _ => h.covered (Or.inl (by rw [hpoint]; rfl))) fun hs => nomatch hs.point
  | readPendData hpoint =>
    have hcovered := h.covered (Or.inl (by rw [hpoint]; rfl))
    exact ⟨hinv, fun hs => absurd rfl hs, fun _ => hcovered,
      fun _ => Or.inr (Or.inr (Mutex.waiting_wait_self _ _))⟩
  | readEmpty hpoint hempty =>
    have hcovered := h.covered (Or.inl (by rw [hpoint]; rfl))
    exact ⟨hinv, fun hs => absurd rfl hs, fun _ => hcovered, fun _ => Or.inl hempty⟩
  | readTake hpoint hdata =>
    obtain ⟨taken, rest, -, heq⟩ := exists_takeData s
    rw [heq] at hinv ⊢
    exact .of_awake hinv (fun hs => absurd rfl hs) (fun hs => nomatch hs)
      fun hs => nomatch hs.returned
  | pollWrite buf hpoint =>
    rw [writeAppend_of_inv (s := { s with writer := { s.writer with buf := buf } })
      ⟨h.inv.woke, h.inv.wrote⟩] at hinv ⊢
    exact h.of_writer hinv rfl rfl rfl rfl rfl rfl
  | writeLockData hpoint hlock =>
    obtain ⟨-, hvalue, -, -, hwaiting⟩ := Mutex.lock_eq_some hlock
    exact h.of_writer hinv rfl rfl rfl hvalue (hwaiting .read (by decide)) rfl
  | writePendData hpoint =>
    have hwaiting := Mutex.waiting_wait_of_ne s.data (show Half.read ≠ .write by decide)
    obtain ⟨point, returned, heq⟩ :=
      exists_writeWake (s := { s with data := s.data.wait .write }) h.inv
    rw [heq] at hinv ⊢
    exact h.of_writer hinv rfl rfl rfl rfl hwaiting rfl
  | writeAppend hpoint =>
    obtain ⟨point, returned, heq⟩ := exists_writeWake (s := { s with
      writer := { s.writer with wrote := true }
      underway := s.underway ++ s.writer.buf }.unlockData (s.data.value ++ s.writer.buf))
      ⟨h.inv.woke, fun _ => rfl⟩
    rw [heq] at hinv ⊢
    refine ⟨hinv, h.cx, fun hs => h.covered (hs.imp_right fun hs => ?_),
      fun _ => Or.inr (Or.inl rfl)⟩
    exact ⟨hs.point, hs.returned, (Bool.or_eq_false_iff.mp hs.woken).1⟩
  | writeLockWaker hpoint hlock =>
    obtain ⟨-, hvalue, -, -, hwaiting⟩ := Mutex.lock_eq_some hlock
    exact h.of_writer hinv rfl hvalue (hwaiting .read (by decide)) rfl rfl rfl
  | writePendWaker hpoint =>
    rw [writeReturn_of_inv (s := { s with waker := s.waker.wait .write }) h.inv] at hinv ⊢
    exact h.of_writer hinv rfl rfl (Mutex.waiting_wait_of_ne _ (by decide)) rfl rfl rfl
  | writeWake hpoint =>
    obtain ⟨hpoint', hcx, hreturned, hwoken⟩ := reader_wakeStored s
    rw [writeReturn_wakeStored h.inv hpoint] at hinv ⊢
    refine .of_awake hinv ?_ (fun hs => ?_) fun hs => ?_
    · rw [hpoint', hcx]
      exact h.cx
    · rw [hpoint'] at hs
      rw [Covered, hcx]
      exact h.covered (Or.inl hs)
    · -- before the step it slept, too, and the step has reached it
      have hasleep := Bool.or_eq_false_iff.mp hs.woken
      have hsleeping : s.Sleeping :=
        ⟨hpoint'.symm.trans hs.point, hreturned.symm.trans hs.returned, hwoken hasleep.1⟩
      have hcalled := (h.covered (Or.inr hsleeping)).woken
      rw [hasleep.1, hasleep.2] at hcalled
      cases hcalled

/-- **No wake-up is lost.**  There is nothing to read while the read half sleeps, does not wait
for the mutex of the data, and no write is between its append and its wake step. -/
theorem no_lost_wakeup {ls : List (StreamLabel Waker)} {s : StreamState Waker}
    (hr : exec step new ls = some s) (hpoint : s.reader.point = .idle)
    (hreturned : s.reader.returned = some .pending) (hwoken : s.reader.woken = false)
    (hwrite : ¬ (s.writer.wrote = true ∧ s.writer.woke = false))
    (hwaiting : s.data.waiting .read = false) : s.data.value = [] := by
  have h : s.Wakeable := invariant_of_exec (fun _ _ _ h hstep => h.step hstep) hr wakeable_new
  rcases h.empty ⟨hpoint, hreturned, hwoken⟩ with hempty | hwrote | hwaits
  · exact hempty
  · exact absurd ⟨hwrote, h.inv.woke⟩ hwrite
  · rw [hwaiting] at hwaits
    cases hwaits

/-- A byte is written, read, and waited for. -/
theorem no_lost_wakeup_read : ∃ s : StreamState Unit,
    exec step new [.pollWrite [1], .lock .write, .finish .write, .lock .write, .finish .write,
      .pollRead () 8, .lock .read, .finish .read, .lock .read, .finish .read,
      .pollRead () 8, .lock .read, .finish .read, .lock .read, .finish .read] = some s ∧
    s.reader.returned = some .pending ∧ s.received = [1] ∧ s.data.value = [] := by
  refine ⟨_, rfl, rfl, rfl, ?_⟩
  exact @no_lost_wakeup Unit _
    [.pollWrite [1], .lock .write, .finish .write, .lock .write, .finish .write,
      .pollRead () 8, .lock .read, .finish .read, .lock .read, .finish .read,
      .pollRead () 8, .lock .read, .finish .read, .lock .read, .finish .read] _
    rfl rfl rfl rfl (by decide) rfl

/-- While a second write holds the mutex of the data, the bytes of the first are there, and
`poll_read` returns `Pending`. -/
theorem sleeps_with_data : ∃ s : StreamState Unit,
    exec step new [.pollWrite [1], .lock .write, .finish .write, .lock .write, .finish .write,
      .pollWrite [2], .lock .write, .pollRead () 8, .lock .read, .finish .read,
      .pend .read] = some s ∧
    s.reader.point = .idle ∧ s.reader.returned = some .pending ∧ s.reader.woken = false ∧
      ¬ (s.writer.wrote = true ∧ s.writer.woke = false) ∧ s.data.holder = some .write ∧
        s.data.value = [1] :=
  ⟨_, rfl, rfl, rfl, rfl, by decide, rfl, rfl⟩

end StreamState

end Tewta
