import Tewta.Hash
import Tewta.Lib.Mutex
import Tewta.Lib.Transition

/-!
# The test stream

One direction of a `TestStream`: a write half, and the read half at the other end.  They share
the bytes that are written and not read, and the waker of the reading task, each under a mutex.
A call of `poll_read` or `poll_write` polls the futures of both mutexes, one after the other, and
what it does under a lock is one step.  Between its steps the other half can take its own.

The fields `lock_fut` and `waker_lock_fut` of the halves are there as long as the mutex has them
waiting.  `poll_write` is called with any buffer at any time, so an unfinished write may be
resumed or given up for another.
-/

namespace Tewta

open Transition

inductive Half
  | read
  | write
  deriving DecidableEq

/-- `Poll<io::Result<T>>`; no half returns an error. -/
inductive Poll (T : Type)
  | ready (value : T)
  | pending
  deriving DecidableEq

/-- What a call of `poll_read` does next, if there is one. -/
inductive ReadPoint
  | idle
  | lockingWaker
  | settingWaker
  | lockingData
  | checking
  deriving DecidableEq

/-- What a call of `poll_write` does next, if there is one. -/
inductive WritePoint
  | idle
  | lockingData
  | appending
  | lockingWaker
  | waking
  deriving DecidableEq

structure TestReadHalf (Waker : Type) where
  point : ReadPoint
  /-- `cx.waker()` of the last call -/
  cx : Option Waker
  /-- `buf.remaining()` of the last call -/
  remaining : ℕ
  returned : Option (Poll Unit)
  /-- whether `cx` was woken since the last call returned -/
  woken : Bool

structure TestWriteHalf where
  point : WritePoint
  /-- of the last call -/
  buf : Bytes
  wrote : Bool
  woke : Bool
  returned : Option (Poll ℕ)

structure StreamState (Waker : Type) where
  data : Mutex Half Bytes
  /-- `waken_on_readable` of the read half, and `to_wake_on_write` of the write half -/
  waker : Mutex Half (Option Waker)
  reader : TestReadHalf Waker
  writer : TestWriteHalf
  /-- all bytes that `poll_read` has put into buffers -/
  received : Bytes
  /-- the buffers for which `poll_write` has returned `Ready` -/
  accepted : Bytes
  /-- what was appended since then -/
  underway : Bytes

inductive StreamLabel (Waker : Type)
  | pollRead (cx : Waker) (remaining : ℕ)
  | pollWrite (buf : Bytes)
  /-- the lock future that is polled next is ready -/
  | lock (half : Half)
  /-- or is pending -/
  | pend (half : Half)
  /-- what is done under the lock, and the guard is dropped -/
  | finish (half : Half)
  deriving DecidableEq

namespace StreamState

variable {Waker : Type}

/-- `TestStream::new`, and `into_split` of both ends. -/
def new : StreamState Waker where
  data := .new []
  waker := .new none
  reader := { point := .idle, cx := none, remaining := 0, returned := none, woken := false }
  writer := { point := .idle, buf := [], wrote := false, woke := false, returned := none }
  received := []
  accepted := []
  underway := []

/-- The guard of `data` is dropped.  A read half that waits is woken; `poll_write` can be called
at any time, so nothing is kept of a write half that is. -/
def unlockData (s : StreamState Waker) (data : Bytes) : StreamState Waker :=
  { s with
    data := s.data.unlock data
    reader := { s.reader with woken := s.reader.woken || s.data.waiting .read } }

def unlockWaker (s : StreamState Waker) (waker : Option Waker) : StreamState Waker :=
  { s with
    waker := s.waker.unlock waker
    reader := { s.reader with woken := s.reader.woken || s.waker.waiting .read } }

/-! ### Reading -/

def readPending (s : StreamState Waker) : StreamState Waker :=
  { s with reader := { s.reader with point := .idle, returned := some .pending, woken := false } }

def readReady (s : StreamState Waker) : StreamState Waker :=
  { s with
    reader := { s.reader with point := .idle, returned := some (.ready ()), woken := false } }

/-- "Checking readable": the bytes are not empty. -/
def takeData (s : StreamState Waker) : StreamState Waker :=
  if s.reader.remaining < s.data.value.length then
    let size := s.reader.remaining
    readReady ({ s with received := s.received ++ s.data.value.take size }.unlockData
      (s.data.value.drop size))
  else readReady ({ s with received := s.received ++ s.data.value }.unlockData [])

/-! ### Writing -/

/-- The last lines of `poll_write`. -/
def writeReturn (s : StreamState Waker) : StreamState Waker :=
  if s.writer.wrote && s.writer.woke then
    { s with
      writer := { s.writer with
        point := .idle, wrote := false, woke := false,
        returned := some (.ready s.writer.buf.length) }
      accepted := s.accepted ++ s.writer.buf
      underway := [] }
  else { s with writer := { s.writer with point := .idle, returned := some .pending } }

/-- `poll_write` from `if self.wrote && !self.woke` on. -/
def writeWake (s : StreamState Waker) : StreamState Waker :=
  if s.writer.wrote && !s.writer.woke then
    { s with writer := { s.writer with point := .lockingWaker } }
  else s.writeReturn

/-- `poll_write` from `if !self.wrote` on. -/
def writeAppend (s : StreamState Waker) : StreamState Waker :=
  if !s.writer.wrote then { s with writer := { s.writer with point := .lockingData } }
  else s.writeWake

/-- `waker.wake()`, which is for the reading task if it is the waker of its last call. -/
def wakeStored [DecidableEq Waker] (s : StreamState Waker) : StreamState Waker :=
  match s.waker.value with
  | some waker =>
    { s with
      reader := { s.reader with woken := s.reader.woken || decide (s.reader.cx = some waker) } }
  | none => s

/-! ### Steps -/

variable [DecidableEq Waker]

def step (s : StreamState Waker) : StreamLabel Waker → Option (StreamState Waker)
  | .pollRead cx remaining =>
    if s.reader.point = .idle then
      some { s with reader := { s.reader with
        point := .lockingWaker, cx := some cx, remaining := remaining } }
    else none
  | .lock .read =>
    match s.reader.point with
    | .lockingWaker => (s.waker.lock .read).map fun waker =>
      { s with waker := waker, reader := { s.reader with point := .settingWaker } }
    | .lockingData => (s.data.lock .read).map fun data =>
      { s with data := data, reader := { s.reader with point := .checking } }
    | _ => none
  | .pend .read =>
    match s.reader.point with
    | .lockingWaker => some { s with
        waker := s.waker.wait .read, reader := { s.reader with point := .lockingData } }
    | .lockingData => some { s with data := s.data.wait .read }.readPending
    | _ => none
  | .finish .read =>
    match s.reader.point with
    | .settingWaker => some
        ({ s with reader := { s.reader with point := .lockingData } }.unlockWaker s.reader.cx)
    | .checking =>
      if s.data.value.isEmpty then some (s.unlockData s.data.value).readPending
      else some s.takeData
    | _ => none
  | .pollWrite buf =>
    if s.writer.point = .idle then
      some { s with writer := { s.writer with buf := buf } }.writeAppend
    else none
  | .lock .write =>
    match s.writer.point with
    | .lockingData => (s.data.lock .write).map fun data =>
      { s with data := data, writer := { s.writer with point := .appending } }
    | .lockingWaker => (s.waker.lock .write).map fun waker =>
      { s with waker := waker, writer := { s.writer with point := .waking } }
    | _ => none
  | .pend .write =>
    match s.writer.point with
    | .lockingData => some { s with data := s.data.wait .write }.writeWake
    | .lockingWaker => some { s with waker := s.waker.wait .write }.writeReturn
    | _ => none
  | .finish .write =>
    match s.writer.point with
    | .appending => some (({ s with
        writer := { s.writer with wrote := true }
        underway := s.underway ++ s.writer.buf }.unlockData
          (s.data.value ++ s.writer.buf)).writeWake)
    | .waking => some (({ s.wakeStored with
        writer := { s.writer with woke := true } }.unlockWaker s.waker.value).writeReturn)
    | _ => none

/-- What one step does. -/
inductive Steps (s : StreamState Waker) : StreamLabel Waker → StreamState Waker → Prop
  | pollRead (cx : Waker) (remaining : ℕ) : s.reader.point = .idle →
      Steps s (.pollRead cx remaining) { s with reader := { s.reader with
        point := .lockingWaker, cx := some cx, remaining := remaining } }
  | readLockWaker {waker} : s.reader.point = .lockingWaker → s.waker.lock .read = some waker →
      Steps s (.lock .read) { s with
        waker := waker, reader := { s.reader with point := .settingWaker } }
  | readPendWaker : s.reader.point = .lockingWaker → Steps s (.pend .read) { s with
      waker := s.waker.wait .read, reader := { s.reader with point := .lockingData } }
  | readSetWaker : s.reader.point = .settingWaker → Steps s (.finish .read)
      ({ s with reader := { s.reader with point := .lockingData } }.unlockWaker s.reader.cx)
  | readLockData {data} : s.reader.point = .lockingData → s.data.lock .read = some data →
      Steps s (.lock .read) { s with
        data := data, reader := { s.reader with point := .checking } }
  | readPendData : s.reader.point = .lockingData →
      Steps s (.pend .read) { s with data := s.data.wait .read }.readPending
  | readEmpty : s.reader.point = .checking → s.data.value = [] →
      Steps s (.finish .read) (s.unlockData s.data.value).readPending
  | readTake : s.reader.point = .checking → s.data.value ≠ [] →
      Steps s (.finish .read) s.takeData
  | pollWrite (buf : Bytes) : s.writer.point = .idle →
      Steps s (.pollWrite buf) { s with writer := { s.writer with buf := buf } }.writeAppend
  | writeLockData {data} : s.writer.point = .lockingData → s.data.lock .write = some data →
      Steps s (.lock .write) { s with
        data := data, writer := { s.writer with point := .appending } }
  | writePendData : s.writer.point = .lockingData →
      Steps s (.pend .write) { s with data := s.data.wait .write }.writeWake
  | writeAppend : s.writer.point = .appending →
      Steps s (.finish .write) ({ s with
        writer := { s.writer with wrote := true }
        underway := s.underway ++ s.writer.buf }.unlockData
          (s.data.value ++ s.writer.buf)).writeWake
  | writeLockWaker {waker} : s.writer.point = .lockingWaker →
      s.waker.lock .write = some waker → Steps s (.lock .write) { s with
        waker := waker, writer := { s.writer with point := .waking } }
  | writePendWaker : s.writer.point = .lockingWaker →
      Steps s (.pend .write) { s with waker := s.waker.wait .write }.writeReturn
  | writeWake : s.writer.point = .waking →
      Steps s (.finish .write) ({ s.wakeStored with
        writer := { s.writer with woke := true } }.unlockWaker s.waker.value).writeReturn

theorem steps_of_step {s t : StreamState Waker} {l : StreamLabel Waker} (h : s.step l = some t) :
    s.Steps l t := by
  rw [step.eq_def] at h
  split at h
  · split at h
    · rename_i hpoint
      cases h
      exact .pollRead _ _ hpoint
    · cases h
  · split at h
    · rename_i hpoint
      obtain ⟨waker, hlock, rfl⟩ := Option.map_eq_some_iff.mp h
      exact .readLockWaker hpoint hlock
    · rename_i hpoint
      obtain ⟨data, hlock, rfl⟩ := Option.map_eq_some_iff.mp h
      exact .readLockData hpoint hlock
    · cases h
  · split at h
    · rename_i hpoint
      cases h
      exact .readPendWaker hpoint
    · rename_i hpoint
      cases h
      exact .readPendData hpoint
    · cases h
  · split at h
    · rename_i hpoint
      cases h
      exact .readSetWaker hpoint
    · rename_i hpoint
      split at h
      · rename_i hempty
        cases h
        exact .readEmpty hpoint (List.isEmpty_iff.mp hempty)
      · rename_i hdata
        cases h
        exact .readTake hpoint (mt List.isEmpty_iff.mpr hdata)
    · cases h
  · split at h
    · rename_i hpoint
      cases h
      exact .pollWrite _ hpoint
    · cases h
  · split at h
    · rename_i hpoint
      obtain ⟨data, hlock, rfl⟩ := Option.map_eq_some_iff.mp h
      exact .writeLockData hpoint hlock
    · rename_i hpoint
      obtain ⟨waker, hlock, rfl⟩ := Option.map_eq_some_iff.mp h
      exact .writeLockWaker hpoint hlock
    · cases h
  · split at h
    · rename_i hpoint
      cases h
      exact .writePendData hpoint
    · rename_i hpoint
      cases h
      exact .writePendWaker hpoint
    · cases h
  · split at h
    · rename_i hpoint
      cases h
      exact .writeAppend hpoint
    · rename_i hpoint
      cases h
      exact .writeWake hpoint
    · cases h

/-! ### The flags of the write half -/

end StreamState

/-- The points of a call behind its append. -/
def WritePoint.wakes : WritePoint → Bool
  | .lockingWaker | .waking => true
  | .idle | .lockingData | .appending => false

/-- The flags between two steps.  `woke` is reset in the step that sets it. -/
structure TestWriteHalf.Inv (w : TestWriteHalf) : Prop where
  woke : w.woke = false
  wrote : w.point.wakes = true → w.wrote = true

namespace StreamState

variable {Waker : Type}

theorem inv_new : (new : StreamState Waker).writer.Inv := ⟨rfl, fun h => nomatch h⟩

theorem writeReturn_of_inv {s : StreamState Waker} (h : s.writer.Inv) :
    s.writeReturn =
      { s with writer := { s.writer with point := .idle, returned := some .pending } } := by
  rw [writeReturn, h.woke, Bool.and_false]
  rfl

theorem writeWake_of_inv {s : StreamState Waker} (h : s.writer.Inv) :
    s.writeWake = if s.writer.wrote then
        { s with writer := { s.writer with point := .lockingWaker } }
      else { s with writer := { s.writer with point := .idle, returned := some .pending } } := by
  rw [writeWake, writeReturn_of_inv h, h.woke, Bool.not_false, Bool.and_true]

theorem writeAppend_of_inv {s : StreamState Waker} (h : s.writer.Inv) :
    s.writeAppend = { s with writer := { s.writer with
      point := if s.writer.wrote then .lockingWaker else .lockingData } } := by
  rw [writeAppend, writeWake_of_inv h]
  cases s.writer.wrote with
  | true => rfl
  | false => rfl

theorem exists_writeWake {s : StreamState Waker} (h : s.writer.Inv) : ∃ point returned,
    s.writeWake =
      { s with writer := { s.writer with point := point, returned := returned } } := by
  rw [writeWake_of_inv h]
  split
  · exact ⟨_, _, rfl⟩
  · exact ⟨_, _, rfl⟩

theorem inv_writeWake {s : StreamState Waker} (h : s.writer.Inv) : s.writeWake.writer.Inv := by
  rw [writeWake_of_inv h]
  split
  · rename_i hwrote
    exact ⟨h.woke, fun _ => hwrote⟩
  · exact ⟨h.woke, fun hpoint => nomatch hpoint⟩

theorem exists_takeData (s : StreamState Waker) : ∃ taken rest, taken ++ rest = s.data.value ∧
    s.takeData = readReady ({ s with received := s.received ++ taken }.unlockData rest) := by
  rw [takeData]
  split
  · exact ⟨_, _, List.take_append_drop _ _, rfl⟩
  · exact ⟨_, _, List.append_nil _, rfl⟩

variable [DecidableEq Waker]

/-- **The wake step returns `Ready`.** -/
theorem writeReturn_wakeStored {s : StreamState Waker} (h : s.writer.Inv)
    (hpoint : s.writer.point = .waking) :
    ({ s.wakeStored with
        writer := { s.writer with woke := true } }.unlockWaker s.waker.value).writeReturn =
      { s with
        waker := s.waker.unlock s.waker.value
        reader := { s.wakeStored.reader with
          woken := s.wakeStored.reader.woken || s.waker.waiting .read }
        writer := { s.writer with
          point := .idle, wrote := false, woke := false,
          returned := some (.ready s.writer.buf.length) }
        accepted := s.accepted ++ s.writer.buf
        underway := [] } := by
  have hwrote := h.wrote (by rw [hpoint]; rfl)
  have hready : (s.writer.wrote && true) = true := by rw [hwrote, Bool.and_true]
  rw [wakeStored]
  split
  · exact if_pos hready
  · exact if_pos hready

theorem inv_step {s t : StreamState Waker} {l : StreamLabel Waker} (h : s.writer.Inv)
    (hstep : s.step l = some t) : t.writer.Inv := by
  cases steps_of_step hstep with
  | pollRead cx remaining hpoint => exact h
  | readLockWaker hpoint hlock => exact h
  | readPendWaker hpoint => exact h
  | readSetWaker hpoint => exact h
  | readLockData hpoint hlock => exact h
  | readPendData hpoint => exact h
  | readEmpty hpoint hempty => exact h
  | readTake hpoint hdata =>
    obtain ⟨taken, rest, -, heq⟩ := exists_takeData s
    rw [heq]
    exact h
  | pollWrite buf hpoint =>
    rw [writeAppend_of_inv (s := { s with writer := { s.writer with buf := buf } })
      ⟨h.woke, h.wrote⟩]
    refine ⟨h.woke, ?_⟩
    dsimp only
    split
    · rename_i hwrote
      exact fun _ => hwrote
    · exact fun hpoint => nomatch hpoint
  | writeLockData hpoint hlock => exact ⟨h.woke, fun hpoint => nomatch hpoint⟩
  | writePendData hpoint => exact inv_writeWake (s := { s with data := s.data.wait .write }) h
  | writeAppend hpoint => exact inv_writeWake ⟨h.woke, fun _ => rfl⟩
  | writeLockWaker hpoint hlock => exact ⟨h.woke, fun _ => h.wrote (by rw [hpoint]; rfl)⟩
  | writePendWaker hpoint =>
    rw [writeReturn_of_inv (s := { s with waker := s.waker.wait .write }) h]
    exact ⟨h.woke, fun hpoint => nomatch hpoint⟩
  | writeWake hpoint =>
    rw [writeReturn_wakeStored h hpoint]
    exact ⟨rfl, fun hpoint => nomatch hpoint⟩

end StreamState

end Tewta
