import Tewta.Stream

/-!
# What the test stream delivers

What has been read and what is still buffered are the buffers for which `poll_write` has returned
`Ready`, followed by what was appended for a write that has not (`Sound.total`).  The latter is
counted when a call returns `Ready`, whatever its buffer is.  So the stream delivers what was
written as long as a call that ends a write has the buffer of the call that has begun it
(`stream_is_faithful_iff`).
-/

namespace Tewta

open Transition

namespace StreamState

variable {Waker : Type}

/-- What the steps keep as long as no write is ended with another buffer. -/
structure Sound (s : StreamState Waker) : Prop where
  total : s.received ++ s.data.value = s.accepted ++ s.underway
  nothing : s.writer.wrote = false → s.underway = []
  inv : s.writer.Inv

theorem sound_new : (new : StreamState Waker).Sound := ⟨rfl, fun _ => rfl, inv_new⟩

/-! ### Calls of `poll_write` -/

theorem Sound.writeWake {s : StreamState Waker} (h : s.Sound) : s.writeWake.Sound := by
  obtain ⟨point, returned, heq⟩ := exists_writeWake h.inv
  have hinv := inv_writeWake h.inv
  rw [heq] at hinv ⊢
  exact ⟨h.total, h.nothing, hinv⟩

theorem Sound.appended {s : StreamState Waker} (h : s.Sound) :
    ({ s with
      writer := { s.writer with wrote := true }
      underway := s.underway ++ s.writer.buf }.unlockData
        (s.data.value ++ s.writer.buf)).Sound := by
  refine ⟨?_, fun hwrote => (nomatch hwrote), h.inv.woke, fun _ => rfl⟩
  show s.received ++ (s.data.value ++ s.writer.buf) = s.accepted ++ (s.underway ++ s.writer.buf)
  rw [← List.append_assoc, h.total, List.append_assoc]

variable [DecidableEq Waker]

/-- A call that ends a write has the buffer that was appended. -/
def SameBuffer (s : StreamState Waker) (l : StreamLabel Waker) : Prop :=
  l = .finish .write → s.writer.point = .waking → s.writer.buf = s.underway

/-- A call that has appended something also wakes. -/
def WakesAtOnce (s : StreamState Waker) (l : StreamLabel Waker) : Prop :=
  l = .pend .write → s.writer.point = .lockingWaker → s.underway = []

instance (s : StreamState Waker) (l : StreamLabel Waker) : Decidable (SameBuffer s l) :=
  inferInstanceAs (Decidable (_ → _ → _))

instance (s : StreamState Waker) (l : StreamLabel Waker) : Decidable (WakesAtOnce s l) :=
  inferInstanceAs (Decidable (_ → _ → _))

theorem Sound.step {s t : StreamState Waker} {l : StreamLabel Waker} (h : s.Sound)
    (hok : SameBuffer s l) (hstep : s.step l = some t) : t.Sound := by
  have hinv := inv_step h.inv hstep
  cases steps_of_step hstep with
  | pollRead cx remaining hpoint => exact ⟨h.total, h.nothing, hinv⟩
  | readLockWaker hpoint hlock => exact ⟨h.total, h.nothing, hinv⟩
  | readPendWaker hpoint => exact ⟨h.total, h.nothing, hinv⟩
  | readSetWaker hpoint => exact ⟨h.total, h.nothing, hinv⟩
  | readLockData hpoint hlock =>
    refine ⟨?_, h.nothing, hinv⟩
    rw [(Mutex.lock_eq_some hlock).2.1]
    exact h.total
  | readPendData hpoint => exact ⟨h.total, h.nothing, hinv⟩
  | readEmpty hpoint hempty => exact ⟨h.total, h.nothing, hinv⟩
  | readTake hpoint hdata =>
    obtain ⟨taken, rest, hsplit, heq⟩ := exists_takeData s
    rw [heq] at hinv ⊢
    refine ⟨?_, h.nothing, hinv⟩
    show (s.received ++ taken) ++ rest = s.accepted ++ s.underway
    rw [List.append_assoc, hsplit]
    exact h.total
  | pollWrite buf hpoint =>
    rw [writeAppend_of_inv (s := { s with writer := { s.writer with buf := buf } })
      ⟨h.inv.woke, h.inv.wrote⟩] at hinv ⊢
    exact ⟨h.total, h.nothing, hinv⟩
  | writeLockData hpoint hlock =>
    refine ⟨?_, h.nothing, hinv⟩
    rw [(Mutex.lock_eq_some hlock).2.1]
    exact h.total
  | writePendData hpoint => exact Sound.writeWake ⟨h.total, h.nothing, h.inv⟩
  | writeAppend hpoint => exact h.appended.writeWake
  | writeLockWaker hpoint hlock => exact ⟨h.total, h.nothing, hinv⟩
  | writePendWaker hpoint =>
    rw [writeReturn_of_inv (s := { s with waker := s.waker.wait .write }) h.inv] at hinv ⊢
    exact ⟨h.total, h.nothing, hinv⟩
  | writeWake hpoint =>
    rw [writeReturn_wakeStored h.inv hpoint] at hinv ⊢
    refine ⟨?_, fun _ => rfl, hinv⟩
    rw [hok rfl hpoint, List.append_nil]
    exact h.total

/-- Another buffer is counted than the one that was appended. -/
theorem Sound.ne_accepted {s t : StreamState Waker} {l : StreamLabel Waker} (h : s.Sound)
    (hbad : ¬ SameBuffer s l) (hstep : s.step l = some t) :
    t.writer.point = .idle ∧ t.writer.wrote = false ∧ t.received ++ t.data.value ≠ t.accepted := by
  obtain ⟨hlabel, hbad⟩ := Classical.not_imp.mp hbad
  obtain ⟨hpoint, hne⟩ := Classical.not_imp.mp hbad
  subst hlabel
  cases steps_of_step hstep with
  | writeWake =>
    rw [writeReturn_wakeStored h.inv hpoint]
    refine ⟨rfl, rfl, fun heq => hne ?_⟩
    have heq : s.received ++ s.data.value = s.accepted ++ s.writer.buf := heq
    rw [h.total] at heq
    exact (List.append_cancel_left heq).symm
  | writeAppend hpoint' =>
    rw [hpoint] at hpoint'
    cases hpoint'

/-! ### Between the calls of `poll_write` -/

/-- Nothing is left of a call that has returned. -/
def Settled (s : StreamState Waker) : Prop := s.writer.point = .idle → s.underway = []

omit [DecidableEq Waker] in
theorem Sound.settled_writeWake {s : StreamState Waker} (h : s.Sound) : s.writeWake.Settled := by
  rw [writeWake_of_inv h.inv]
  split
  · exact fun hpoint => nomatch hpoint
  · rename_i hwrote
    exact fun _ => h.nothing (Bool.eq_false_iff.mpr hwrote)

theorem Sound.settled_step {s t : StreamState Waker} {l : StreamLabel Waker} (h : s.Sound)
    (hsettled : s.Settled) (hok : WakesAtOnce s l) (hstep : s.step l = some t) : t.Settled := by
  cases steps_of_step hstep with
  | pollRead cx remaining hpoint => exact hsettled
  | readLockWaker hpoint hlock => exact hsettled
  | readPendWaker hpoint => exact hsettled
  | readSetWaker hpoint => exact hsettled
  | readLockData hpoint hlock => exact hsettled
  | readPendData hpoint => exact hsettled
  | readEmpty hpoint hempty => exact hsettled
  | readTake hpoint hdata =>
    obtain ⟨taken, rest, -, heq⟩ := exists_takeData s
    rw [heq]
    exact hsettled
  | pollWrite buf hpoint =>
    rw [writeAppend_of_inv (s := { s with writer := { s.writer with buf := buf } })
      ⟨h.inv.woke, h.inv.wrote⟩]
    intro hidle
    dsimp only at hidle
    split at hidle
    · cases hidle
    · cases hidle
  | writeLockData hpoint hlock => exact fun hpoint => nomatch hpoint
  | writePendData hpoint =>
    exact Sound.settled_writeWake ⟨h.total, h.nothing, h.inv⟩
  | writeAppend hpoint =>
    exact h.appended.settled_writeWake
  | writeLockWaker hpoint hlock => exact fun hpoint => nomatch hpoint
  | writePendWaker hpoint =>
    rw [writeReturn_of_inv (s := { s with waker := s.waker.wait .write }) h.inv]
    exact fun _ => hok rfl hpoint
  | writeWake hpoint =>
    rw [writeReturn_wakeStored h.inv hpoint]
    exact fun _ => rfl

/-- A call that has appended something and returns `Pending`. -/
theorem Sound.ne_accepted_of_pend {s t : StreamState Waker} {l : StreamLabel Waker} (h : s.Sound)
    (hbad : ¬ WakesAtOnce s l) (hstep : s.step l = some t) :
    t.writer.point = .idle ∧ t.received ++ t.data.value ≠ t.accepted := by
  obtain ⟨hlabel, hbad⟩ := Classical.not_imp.mp hbad
  obtain ⟨hpoint, hne⟩ := Classical.not_imp.mp hbad
  subst hlabel
  cases steps_of_step hstep with
  | writePendWaker =>
    rw [writeReturn_of_inv (s := { s with waker := s.waker.wait .write }) h.inv]
    refine ⟨rfl, fun heq => hne ?_⟩
    have heq : s.received ++ s.data.value = s.accepted := heq
    rw [h.total] at heq
    exact List.append_right_eq_self.mp heq
  | writePendData hpoint' =>
    rw [hpoint] at hpoint'
    cases hpoint'

/-- **The test stream is faithful**, between the calls of `poll_write`, if a call that appends
also wakes, and whenever no write is under way, if a write is ended with the buffer it was begun
with. -/
theorem stream_is_faithful_iff {ls : List (StreamLabel Waker)} {t : StreamState Waker}
    (hr : exec step new ls = some t) :
    (Always step (fun s => s.writer.point = .idle → s.received ++ s.data.value = s.accepted)
        new ls ↔ Meets step (fun s l => SameBuffer s l ∧ WakesAtOnce s l) new ls) ∧
      (Always step (fun s => s.writer.wrote = false → s.received ++ s.data.value = s.accepted)
        new ls ↔ Meets step SameBuffer new ls) := by
  constructor
  · refine always_iff_meets (I := fun s => s.Sound ∧ s.Settled) ?_ ?_ ?_ hr
      ⟨sound_new, fun _ => rfl⟩
    · rintro s l u ⟨h, hsettled⟩ ⟨hsame, hwakes⟩ hstep
      exact ⟨h.step hsame hstep, h.settled_step hsettled hwakes hstep⟩
    · rintro s ⟨h, hsettled⟩ hpoint
      rw [h.total, hsettled hpoint, List.append_nil]
    · rintro s l u ⟨h, -⟩ hbad hstep hP
      by_cases hsame : SameBuffer s l
      · have hpend := h.ne_accepted_of_pend (fun hwakes => hbad ⟨hsame, hwakes⟩) hstep
        exact hpend.2 (hP hpend.1)
      · have hother := h.ne_accepted hsame hstep
        exact hother.2.2 (hP hother.1)
  · refine always_iff_meets (I := Sound) (fun s l u h hok => h.step hok) ?_ ?_ hr sound_new
    · intro s h hwrote
      rw [h.total, h.nothing hwrote, List.append_nil]
    · intro s l u h hbad hstep hP
      have hother := h.ne_accepted hbad hstep
      exact hother.2.2 (hP hother.2.1)

/-- Two writes and two reads.  The reader finds the data locked by the writer, and later the
writer by the reader. -/
def contended : List (StreamLabel Unit) :=
  [.pollRead () 8, .lock .read, .finish .read, .pollWrite [1, 2], .lock .write, .pend .read,
    .finish .write, .lock .write, .finish .write, .pollRead () 1, .lock .read, .finish .read,
    .lock .read, .pollWrite [3], .pend .write, .finish .read, .pollWrite [3], .lock .write,
    .finish .write, .lock .write, .finish .write, .pollRead () 8, .lock .read, .finish .read,
    .lock .read, .finish .read]

theorem stream_is_faithful_iff_contended :
    Always step (fun s => s.writer.point = .idle → s.received ++ s.data.value = s.accepted) new
        contended ∧
      ∃ s, exec step new contended = some s ∧ s.received = [1, 2, 3] :=
  ⟨(stream_is_faithful_iff rfl).1.mpr (by decide), _, rfl, rfl⟩

/-- The first write is given up while `poll_read` has the lock of the waker, and the second is
counted for it. -/
theorem stream_delivers_abandoned : ∃ s : StreamState Unit,
    exec step new [.pollWrite [1], .lock .write, .finish .write, .pollRead () 8, .lock .read,
      .pend .write, .finish .read, .pollWrite [2], .lock .write, .finish .write] = some s ∧
    s.writer.point = .idle ∧ s.writer.wrote = false ∧ s.writer.returned = some (.ready 1) ∧
      s.accepted = [2] ∧ s.received ++ s.data.value = [1] :=
  ⟨_, rfl, rfl, rfl, rfl, rfl, rfl⟩

end StreamState

end Tewta
