import Tewta.Lib.Framing
import Tewta.Stream.Delivery
import Tewta.Stream.Wakeups

/-!
# What the test stream is used for

`send_packet` writes a frame with `write_all`, which polls `poll_write` with one buffer until it
is `Ready`, and a future of the mutex is pending only while the other half has the lock.  Such a
writer never ends a write with another buffer than the one it was begun with, so the stream is
faithful to it (`Carrying`).  `stream_carries_frames` is what this comes to: the read task never
takes one frame for another, and when it sleeps behind a writer that is done it has read
everything.

So what `sleeps_with_data` shows lasts no longer than the append it waits for.
-/

namespace Tewta

open Framing Transition

namespace StreamState

variable {Waker : Type}

/-- The writer goes through `all` the bytes, and polls again what is pending.  The mutex of the
data keeps the reader waiting only while the writer has it. -/
def Carries (all : Bytes) (s : StreamState Waker) : StreamLabel Waker → Prop
  | .pollWrite buf => (s.writer.returned = some (.pending : Poll ℕ) → buf = s.writer.buf) ∧
      s.accepted ++ buf <+: all
  | .pend .read => s.reader.point = .lockingData → s.data.holder = some .write
  | _ => True

instance [DecidableEq Waker] (all : Bytes) (s : StreamState Waker) :
    (l : StreamLabel Waker) → Decidable (Carries all s l)
  | .pollWrite buf => inferInstanceAs (Decidable
      ((s.writer.returned = some (.pending : Poll ℕ) → buf = s.writer.buf) ∧
        s.accepted ++ buf <+: all))
  | .pend .read => inferInstanceAs (Decidable (_ → _))
  | .pend .write => isTrue trivial
  | .pollRead _ _ => isTrue trivial
  | .lock _ => isTrue trivial
  | .finish _ => isTrue trivial

/-- What such a writer and its reader keep. -/
structure Carrying (all : Bytes) (s : StreamState Waker) : Prop where
  sound : s.Sound
  wakeable : s.Wakeable
  fresh : s.writer.point = .lockingData ∨ s.writer.point = .appending → s.writer.wrote = false
  same : s.writer.wrote = true → s.underway = s.writer.buf
  pending : s.writer.point = .idle → s.writer.wrote = true →
    s.writer.returned = some (.pending : Poll ℕ)
  within : s.accepted ++ s.underway <+: all
  next : s.writer.point ≠ .idle → s.accepted ++ s.writer.buf <+: all
  holder : s.data.holder = some .write → s.writer.point = .appending
  checking : s.reader.point = .checking → s.data.waiting .read = false
  waits : s.Sleeping → s.data.waiting .read = true → s.data.holder = some .write

theorem carrying_new (all : Bytes) : (new : StreamState Waker).Carrying all where
  sound := sound_new
  wakeable := wakeable_new
  fresh _ := rfl
  same h := by cases h
  pending _ h := by cases h
  within := List.nil_prefix
  next h := absurd rfl h
  holder h := by cases h
  checking h := by cases h
  waits h := by cases h.returned

variable [DecidableEq Waker] {all : Bytes} {s t : StreamState Waker}

omit [DecidableEq Waker] in
/-- A write is ended with the buffer it was begun with. -/
theorem Carrying.sameBuffer (h : s.Carrying all) (l : StreamLabel Waker) : SameBuffer s l := by
  intro _ hpoint
  exact (h.same (h.sound.inv.wrote (by rw [hpoint]; rfl))).symm

theorem Carrying.read (h : s.Carrying all) {l : StreamLabel Waker} (hstep : s.step l = some t)
    (hwriter : t.writer = s.writer) (haccepted : t.accepted = s.accepted)
    (hunderway : t.underway = s.underway)
    (hholder : t.data.holder = some .write → s.data.holder = some .write)
    (hchecking : t.reader.point = .checking → t.data.waiting .read = false)
    (hwaits : t.Sleeping → t.data.waiting .read = true → t.data.holder = some .write) :
    t.Carrying all where
  sound := h.sound.step (h.sameBuffer l) hstep
  wakeable := h.wakeable.step hstep
  fresh := hwriter ▸ h.fresh
  same := by
    rw [hwriter, hunderway]
    exact h.same
  pending := hwriter ▸ h.pending
  within := by
    rw [haccepted, hunderway]
    exact h.within
  next := by
    rw [hwriter, haccepted]
    exact h.next
  holder hh := hwriter ▸ h.holder (hholder hh)
  checking := hchecking
  waits := hwaits

theorem Carrying.step {l : StreamLabel Waker} (h : s.Carrying all) (hok : Carries all s l)
    (hstep : s.step l = some t) : t.Carrying all := by
  have hsound := h.sound.step (h.sameBuffer l) hstep
  have hwakeable := h.wakeable.step hstep
  have hinv := h.sound.inv
  cases steps_of_step hstep with
  | pollRead cx remaining hpoint =>
    exact h.read hstep rfl rfl rfl id (fun hc => by cases hc) fun hs => by cases hs.point
  | readLockWaker hpoint hlock =>
    exact h.read hstep rfl rfl rfl id (fun hc => by cases hc) fun hs => by cases hs.point
  | readPendWaker hpoint =>
    exact h.read hstep rfl rfl rfl id (fun hc => by cases hc) fun hs => by cases hs.point
  | readSetWaker hpoint =>
    exact h.read hstep rfl rfl rfl id (fun hc => by cases hc) fun hs => by cases hs.point
  | readLockData hpoint hlock =>
    obtain ⟨-, -, hholder, hwaiting, -⟩ := Mutex.lock_eq_some hlock
    refine h.read hstep rfl rfl rfl (fun hh => ?_) (fun _ => hwaiting) fun hs => by cases hs.point
    have hread : some Half.read = some Half.write := hholder.symm.trans hh
    cases hread
  | readPendData hpoint =>
    exact h.read hstep rfl rfl rfl id (fun hc => by cases hc) fun _ _ => hok hpoint
  | readEmpty hpoint hempty =>
    refine h.read hstep rfl rfl rfl (fun hh => by cases hh) (fun hc => by cases hc) fun _ hw => ?_
    -- the task had the lock, and waits for it no longer
    have hw : s.data.waiting .read = true := hw
    rw [h.checking hpoint] at hw
    cases hw
  | readTake hpoint hdata =>
    obtain ⟨taken, rest, -, heq⟩ := exists_takeData s
    rw [heq] at hstep ⊢
    exact h.read hstep rfl rfl rfl (fun hh => by cases hh) (fun hc => by cases hc)
      fun hs => by cases hs.returned
  | pollWrite buf hpoint =>
    rw [writeAppend_of_inv (s := { s with writer := { s.writer with buf := buf } })
      ⟨hinv.woke, hinv.wrote⟩] at hsound hwakeable ⊢
    obtain ⟨hretry, hbuf⟩ := hok
    refine ⟨hsound, hwakeable, fun hp => ?_, fun hwrote => ?_, fun hp => ?_, h.within,
      fun _ => hbuf, fun hh => ?_, h.checking,
      fun hs => h.waits ⟨hs.point, hs.returned, hs.woken⟩⟩
    · cases hwrote : s.writer.wrote with
      | true =>
        dsimp only at hp
        rw [hwrote] at hp
        rcases hp with hp | hp
        · cases hp
        · cases hp
      | false => rfl
    · have hwrote : s.writer.wrote = true := hwrote
      exact (h.same hwrote).trans (hretry (h.pending hpoint hwrote)).symm
    · dsimp only at hp
      split at hp
      · cases hp
      · cases hp
    · have hp := h.holder hh
      rw [hpoint] at hp
      cases hp
  | writeLockData hpoint hlock =>
    obtain ⟨-, -, hholder, -, hothers⟩ := Mutex.lock_eq_some hlock
    have hwaiting := hothers .read (by decide)
    refine ⟨hsound, hwakeable, fun _ => h.fresh (Or.inl hpoint), h.same, (fun hp => by cases hp),
      h.within, fun _ => h.next (by rw [hpoint]; decide), fun _ => rfl, fun hc => ?_,
      fun _ _ => hholder⟩
    exact hwaiting.trans (h.checking hc)
  | writePendData hpoint =>
    have hwrote := h.fresh (Or.inl hpoint)
    have hwaiting := Mutex.waiting_wait_of_ne s.data (show Half.read ≠ .write by decide)
    have heq := writeWake_of_inv (s := { s with data := s.data.wait .write }) hinv
    rw [if_neg (by rw [hwrote]; decide)] at heq
    rw [heq] at hsound hwakeable ⊢
    refine ⟨hsound, hwakeable, fun _ => hwrote, h.same, fun _ _ => rfl, h.within,
      fun hp => absurd rfl hp, fun hh => ?_, fun hc => ?_, fun hs hw => ?_⟩
    · have hp := h.holder hh
      rw [hpoint] at hp
      cases hp
    · exact hwaiting.trans (h.checking hc)
    · exact h.waits ⟨hs.point, hs.returned, hs.woken⟩ (hwaiting.symm.trans hw)
  | writeAppend hpoint =>
    have hnothing := h.sound.nothing (h.fresh (Or.inr hpoint))
    have heq := writeWake_of_inv (s := { s with
        writer := { s.writer with wrote := true }
        underway := s.underway ++ s.writer.buf }.unlockData (s.data.value ++ s.writer.buf))
      ⟨hinv.woke, fun _ => rfl⟩
    rw [heq.trans (if_pos rfl)] at hsound hwakeable ⊢
    have hunderway : s.underway ++ s.writer.buf = s.writer.buf := by
      rw [hnothing, List.nil_append]
    have hnext := h.next (by rw [hpoint]; decide)
    refine ⟨hsound, hwakeable, fun hp => ?_, fun _ => hunderway, (fun hp => by cases hp), ?_,
      fun _ => hnext, (fun hh => by cases hh), h.checking, fun hs hw => ?_⟩
    · rcases hp with hp | hp
      · cases hp
      · cases hp
    · show s.accepted ++ (s.underway ++ s.writer.buf) <+: all
      rw [hunderway]
      exact hnext
    · -- the guard that is dropped wakes the read half
      have hwoken := (Bool.or_eq_false_iff.mp hs.woken).2
      have hw : s.data.waiting .read = true := hw
      rw [hw] at hwoken
      cases hwoken
  | writeLockWaker hpoint hlock =>
    refine ⟨hsound, hwakeable, fun hp => ?_, h.same, (fun hp => by cases hp), h.within,
      fun _ => h.next (by rw [hpoint]; decide), fun hh => ?_, h.checking,
      fun hs => h.waits ⟨hs.point, hs.returned, hs.woken⟩⟩
    · rcases hp with hp | hp
      · cases hp
      · cases hp
    · have hp := h.holder hh
      rw [hpoint] at hp
      cases hp
  | writePendWaker hpoint =>
    rw [writeReturn_of_inv (s := { s with waker := s.waker.wait .write }) hinv] at hsound hwakeable ⊢
    refine ⟨hsound, hwakeable, fun hp => ?_, h.same, fun _ _ => rfl, h.within,
      fun hp => absurd rfl hp, fun hh => ?_, h.checking,
      fun hs => h.waits ⟨hs.point, hs.returned, hs.woken⟩⟩
    · rcases hp with hp | hp
      · cases hp
      · cases hp
    · have hp := h.holder hh
      rw [hpoint] at hp
      cases hp
  | writeWake hpoint =>
    obtain ⟨hpoint', -, hreturned, hwoken⟩ := reader_wakeStored s
    rw [writeReturn_wakeStored hinv hpoint] at hsound hwakeable ⊢
    refine ⟨hsound, hwakeable, fun _ => rfl, (fun hw => by cases hw), (fun _ hw => by cases hw), ?_,
      fun hp => absurd rfl hp, fun hh => ?_, fun hc => h.checking (hpoint'.symm.trans hc),
      fun hs hw => h.waits ?_ hw⟩
    · show s.accepted ++ s.writer.buf ++ [] <+: all
      rw [List.append_nil]
      exact h.next (by rw [hpoint]; decide)
    · have hp := h.holder hh
      rw [hpoint] at hp
      cases hp
    · exact ⟨hpoint'.symm.trans hs.point, hreturned.symm.trans hs.returned,
        hwoken (Bool.or_eq_false_iff.mp hs.woken).1⟩

omit [DecidableEq Waker] in
/-- What was read is the beginning of what is written. -/
theorem Carrying.received_prefix (h : s.Carrying all) : s.received <+: all := by
  refine List.IsPrefix.trans ⟨s.data.value, h.sound.total⟩ h.within

omit [DecidableEq Waker] in
/-- **A reader that sleeps behind a writer that is done** has read everything. -/
theorem Carrying.received_eq (h : s.Carrying all) (hs : s.Sleeping) (hpoint : s.writer.point = .idle)
    (hreturned : s.writer.returned ≠ some (.pending : Poll ℕ)) : s.received = s.accepted := by
  have hwrote : s.writer.wrote = false := by
    by_contra hwrote
    exact hreturned (h.pending hpoint (by simpa using hwrote))
  have hdata : s.data.value = [] := by
    rcases h.wakeable.empty hs with hempty | hw | hwaits
    · exact hempty
    · rw [hwrote] at hw
      cases hw
    · have hp := h.holder (h.waits hs hwaits)
      rw [hpoint] at hp
      cases hp
  have htotal := h.sound.total
  rw [hdata, h.sound.nothing hwrote, List.append_nil, List.append_nil] at htotal
  exact htotal

/-- **The test stream carries frames.**  Where the writer goes through frames and polls again what
is pending, and the lock of the data is pending only while the writer has it, the reader takes the frames apart as they were, as far as they have arrived.  When
it sleeps and the writer is not in the middle of a write, it has all that was accepted; so if
that is all the frames, it has read their bodies, and nothing besides. -/
theorem stream_carries_frames {max : ℕ} (hmax : max ≤ 256 ^ 4) {bodies : List Bytes}
    (hbodies : ∀ body ∈ bodies, body.length < max) {ls : List (StreamLabel Waker)}
    (hr : exec step new ls = some s) (hok : Meets step (Carries (bodies.flatMap frame)) new ls) :
    (unframe max s.received).1 <+: bodies ∧
    (unframe max s.received).1.flatMap frame ++ (unframe max s.received).2 = s.received ∧
    (s.Sleeping → s.writer.point = .idle → s.writer.returned ≠ some (.pending : Poll ℕ) →
      s.received = s.accepted ∧
        (s.accepted = bodies.flatMap frame → unframe max s.received = (bodies, []))) := by
  have h : s.Carrying (bodies.flatMap frame) :=
    invariant_of_meets (fun _ _ _ h hok hstep => h.step hok hstep) hok hr (carrying_new _)
  obtain ⟨hfront, hparts⟩ := unframe_of_prefix hmax hbodies h.received_prefix
  refine ⟨hfront, hparts, fun hs hpoint hreturned => ?_⟩
  have hreceived := h.received_eq hs hpoint hreturned
  refine ⟨hreceived, fun hall => ?_⟩
  have hframes := unframe_flatMap_frame_append hmax hbodies []
  rw [List.append_nil, unframe_nil, List.append_nil] at hframes
  rw [hreceived, hall, hframes]

/-- Two frames are written, each of them polled again, and read in three parts, and the reader
waits for the next. -/
def twoFrames : List (StreamLabel Unit) :=
  [.pollRead () 8, .lock .read, .finish .read, .pollWrite [0, 0, 0, 1, 7], .lock .write,
    .pend .read, .finish .write, .pend .write, .pollWrite [0, 0, 0, 1, 7], .lock .write,
    .finish .write, .pollRead () 8, .lock .read, .finish .read, .lock .read,
    .pollWrite [0, 0, 0, 2, 8, 9], .pend .write, .finish .read, .pollWrite [0, 0, 0, 2, 8, 9],
    .lock .write, .finish .write, .lock .write, .finish .write, .pollRead () 4, .lock .read,
    .finish .read, .lock .read, .finish .read, .pollRead () 8, .lock .read, .finish .read,
    .lock .read, .finish .read, .pollRead () 8, .lock .read, .finish .read, .lock .read,
    .finish .read]

theorem stream_carries_frames_two : ∃ s,
    exec step new twoFrames = some s ∧ unframe 8 s.received = ([[7], [8, 9]], []) := by
  have hmeets : Meets step (Carries ([[7], [8, 9]].flatMap frame)) new twoFrames := by decide
  obtain ⟨s, hr, hs⟩ : ∃ s, exec step new twoFrames = some s ∧ s.Sleeping ∧
      s.writer.point = .idle ∧ s.writer.returned ≠ some (.pending : Poll ℕ) ∧
      s.accepted = [[7], [8, 9]].flatMap frame :=
    ⟨_, rfl, ⟨rfl, rfl, rfl⟩, rfl, by decide, rfl⟩
  obtain ⟨hsleeping, hpoint, hreturned, haccepted⟩ := hs
  exact ⟨s, hr, ((stream_carries_frames (by decide) (by decide) hr hmeets).2.2 hsleeping hpoint
    hreturned).2 haccepted⟩

end StreamState

end Tewta
