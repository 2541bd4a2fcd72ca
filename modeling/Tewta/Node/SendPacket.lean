import Tewta.Lib.Framing
import Tewta.Lib.Transition
import Tewta.Node.Connections

/-!
# Sending packets, a write at a time

`send_packet_unchecked` takes the lock of the pool, writes the length and then
the body with two calls of `write_all`, and unlocks.  Any number of calls run at
once, and each may be dropped by whoever awaits it wherever it is suspended.

A `TcpStream` is the one of `tokio`, which takes any part of the bytes it is
offered, or with the feature `test` a test stream, whose `poll_write` first
appends all of them and then wakes the reader.  In between `wrote` is set in the
write half, and it stays set if the call is dropped there: the next `poll_write`,
of whatever call, takes the bytes that it is offered for those that were
appended, so the length of the next frame is skipped.

`send_keeps_frames_iff` says exactly in which runs the streams stay intact, that
is, hold whole frames whenever no call is writing, so that the read loop at the
other end recovers what was sent.  They are the runs in which each call that
takes the lock lets go of it with nothing of its frame on the stream or all of
it, a call whose length was skipped is dropped before its body is appended, and
no encoding reaches `MAX_PACKET_SIZE`.  `dropped_lookup_splits_frame` is a run
outside: a call dropped between the length and the body.
-/

namespace Tewta

open Framing Transition

/-- `TcpStream`, without the feature `test` and with it. -/
inductive TcpStream
  | tokio
  | test
  deriving DecidableEq

/-- A call that has the lock: the packet, its encoding, the stream of the peer,
and the arguments of the `write_all` calls that are left, the first of them in
part.  `skips` is whether `wrote` was set when the call got the lock, so that its
first `poll_write` appends nothing. -/
structure Writing where
  stream : StreamId
  packet : Packet
  body : Bytes
  buf : Bytes
  rest : List Bytes
  skips : Bool

/-- The bytes that the call has still to append. -/
def Writing.left (w : Writing) (wrote : Bool) : Bytes :=
  (if wrote then [] else w.buf) ++ w.rest.flatten

/-- All the bytes that it appends if nobody stops it. -/
def Writing.total (w : Writing) : Bytes := if w.skips then w.body else frame w.body

/-- Its whole frame is on the stream. -/
def Writing.isWhole (w : Writing) (wrote : Bool) : Bool := !w.skips && (w.left wrote).isEmpty

/-- One call of `send_packet_unchecked`. -/
inductive SendCall
  | notCalled
  | waiting (n : PeerID) (packet : Packet) (body : Bytes)
  | writing (w : Writing)
  | returned
  | panicked
  | dropped

/-- The pool and its mutex, the calls by number, the bytes written on each
stream, the `wrote` of its write half, and the packets that were sent on it: those
of the calls that returned, and those whose frames are there to the end. -/
structure SendState where
  pool : ConnectionPool
  locked : Option ℕ
  calls : ℕ → SendCall
  written : StreamId → Bytes
  wrote : StreamId → Bool
  sent : StreamId → List Packet

inductive SendLabel
  /-- `send_packet` is called, and serializes its packet -/
  | sendPacket (t : ℕ) (n : PeerID) (p : Packet)
  /-- `disconnect` calls `send_packet_unchecked` with its Quit -/
  | sendPacketUnchecked (t : ℕ) (n : PeerID) (p : Packet)
  /-- a call gets the lock and looks the peer up -/
  | lock (t : ℕ)
  /-- the stream takes some of the bytes it is offered -/
  | write (t : ℕ) (k : ℕ)
  /-- the reader of a test stream is woken, and `poll_write` returns -/
  | wake (t : ℕ)
  /-- a `write_all` returns -/
  | next (t : ℕ)
  /-- a write fails, and `unwrap` panics -/
  | fail (t : ℕ)
  /-- the future of a call is dropped -/
  | drop (t : ℕ)
  /-- another function of the pool changes the entries while it has the lock -/
  | change (connections : ConnectionPool)

section Step

variable (codec : Codec Bytes) (transport : TcpStream)

/-- A call up to the lock: the packet is serialized, and an error ends the call. -/
def serialize (n : PeerID) (p : Packet) : SendCall :=
  match codec.rawBytes p with
  | .ok body => .waiting n p body
  | .error _ => .returned

/-- `send_packet` asserts that the packet is no Quit. -/
def assertNoQuit (n : PeerID) (p : Packet) : SendCall :=
  match p with
  | .quit _ => .panicked
  | _ => serialize codec n p

/-- With the lock: the peer is looked up, and the first `write_all` is called. -/
def SendState.lookup (s : SendState) (n : PeerID) (p : Packet) (body : Bytes) : SendCall :=
  match s.pool.connections[n]? with
  | none => .returned
  | some peer =>
    .writing
      { stream := peer.writeStream, packet := p, body, buf := ByteString.be 4 body.length
        rest := [body], skips := s.wrote peer.writeStream }

/-- A call that was writing ends, and lets go of the lock. -/
def SendState.release (s : SendState) (t : ℕ) (w : Writing) (outcome : SendCall) (sent : Bool) :
    SendState :=
  { s with
    locked := none
    calls := Function.update s.calls t outcome
    sent := if sent then
        Function.update s.sent w.stream (s.sent w.stream ++ [w.packet])
      else s.sent }

/-- One step of the pool and its callers.  A call waits, and can be dropped, only
where a `poll_write` has bytes to write; a test stream does not fail. -/
def sendStep (s : SendState) : SendLabel → Option SendState
  | .sendPacket t n p =>
    match s.calls t with
    | .notCalled => some { s with calls := Function.update s.calls t (assertNoQuit codec n p) }
    | _ => none
  | .sendPacketUnchecked t n p =>
    match s.calls t with
    | .notCalled => some { s with calls := Function.update s.calls t (serialize codec n p) }
    | _ => none
  | .lock t =>
    match s.calls t, s.locked with
    | .waiting n p body, none =>
      match s.lookup n p body with
      | .writing w =>
        some { s with locked := some t, calls := Function.update s.calls t (.writing w) }
      | c => some { s with calls := Function.update s.calls t c }
    | _, _ => none
  | .write t k =>
    match s.calls t with
    | .writing w =>
      match transport with
      | .tokio =>
        if 0 < k ∧ k ≤ w.buf.length then
          some { s with
            calls := Function.update s.calls t (.writing { w with buf := w.buf.drop k })
            written := Function.update s.written w.stream (s.written w.stream ++ w.buf.take k) }
        else none
      | .test =>
        if s.wrote w.stream = false ∧ 0 < k ∧ k = w.buf.length then
          some { s with
            written := Function.update s.written w.stream (s.written w.stream ++ w.buf)
            wrote := Function.update s.wrote w.stream true }
        else none
    | _ => none
  | .wake t =>
    match s.calls t with
    | .writing w =>
      if s.wrote w.stream = true ∧ w.buf ≠ [] then
        some { s with
          calls := Function.update s.calls t (.writing { w with buf := [] })
          wrote := Function.update s.wrote w.stream false }
      else none
    | _ => none
  | .next t =>
    match s.calls t with
    | .writing w =>
      match w.buf, w.rest with
      | [], buf :: rest =>
        some { s with
          calls := Function.update s.calls t (.writing { w with buf := buf, rest := rest }) }
      | [], [] => some (s.release t w .returned true)
      | _ :: _, _ => none
    | _ => none
  | .fail t =>
    match s.calls t with
    | .writing w =>
      if transport = .test ∨ w.buf = [] then none
      else some (s.release t w .panicked (w.isWhole (s.wrote w.stream)))
    | _ => none
  | .drop t =>
    match s.calls t with
    | .waiting _ _ _ => some { s with calls := Function.update s.calls t .dropped }
    | .writing w =>
      if w.buf = [] then none else some (s.release t w .dropped (w.isWhole (s.wrote w.stream)))
    | _ => none
  | .change pool =>
    match s.locked with
    | none => some { s with pool := pool }
    | some _ => none

end Step

/-- Nothing is written yet and nobody has called. -/
def SendState.init (pool : ConnectionPool) : SendState where
  pool := pool
  locked := none
  calls _ := .notCalled
  written _ := []
  wrote _ := false
  sent _ := []

/-! ### What streams should look like -/

/-- A call is writing on the stream. -/
def SendState.Busy (s : SendState) (stream : StreamId) : Prop :=
  ∃ t w, s.calls t = .writing w ∧ w.stream = stream

/-- The bodies of the packets sent on a stream. -/
def Encodes (codec : Codec Bytes) : List Packet → List Bytes → Prop :=
  List.Forall₂ fun p body => codec.rawBytes p = .ok body

/-- The bytes on a stream are the frames of the packets sent, each with its
length in the first four bytes, and the read loop of `insert` recovers them. -/
structure SendState.Intact (codec : Codec Bytes) (s : SendState) (stream : StreamId) : Prop where
  frames : ∃ bodies, Encodes codec (s.sent stream) bodies ∧
    (∀ body ∈ bodies, body.length < 256 ^ 4) ∧ s.written stream = bodies.flatMap frame
  recovers : (unframe maxPacketSize (s.written stream)).1.map codec.fromRawBytes =
    (s.sent stream).map .ok
  nothing_left : (unframe maxPacketSize (s.written stream)).2 = []

/-- Every stream is intact whenever no call is writing on it. -/
def SendState.AllIntact (codec : Codec Bytes) (s : SendState) : Prop :=
  ∀ stream, ¬ s.Busy stream → s.Intact codec stream

/-- A call can be stopped: nothing that it appends is on the stream, or its whole
frame is, and the frame is one that a reader accepts. -/
def Writing.CanStop (w : Writing) (wrote : Bool) : Prop :=
  w.left wrote = w.total ∨ (w.isWhole wrote = true ∧ w.body.length < maxPacketSize)

/-- A call can return: the length of its frame was not skipped, and the frame is
one that a reader accepts. -/
def Writing.CanReturn (w : Writing) : Prop := w.skips = false ∧ w.body.length < maxPacketSize

/-- A step that does not cut a frame off, and does not complete a frame without a
length or one that is too large. -/
def KeepsFrames (s : SendState) : SendLabel → Prop
  | .next t => ∀ w, s.calls t = .writing w → w.buf = [] → w.rest = [] → w.CanReturn
  | .fail t => ∀ w, s.calls t = .writing w → w.CanStop (s.wrote w.stream)
  | .drop t => ∀ w, s.calls t = .writing w → w.CanStop (s.wrote w.stream)
  | _ => True

/-! ### What a step does -/

variable {codec : Codec Bytes} {transport : TcpStream}

theorem serialize_cases (codec : Codec Bytes) (n : PeerID) (p : Packet) :
    (∃ body, serialize codec n p = .waiting n p body ∧ codec.rawBytes p = .ok body) ∨
      serialize codec n p = .returned := by
  rw [serialize]
  cases h : codec.rawBytes p with
  | ok body => exact Or.inl ⟨body, rfl, rfl⟩
  | error e => exact Or.inr rfl

/-- The call that gets the lock has all that it will append before it. -/
theorem SendState.lookup_cases (s : SendState) (n : PeerID) (p : Packet) (body : Bytes) :
    (∃ w, s.lookup n p body = .writing w ∧ w.packet = p ∧ w.body = body ∧ w.buf ≠ [] ∧
      w.left (s.wrote w.stream) = w.total) ∨ s.lookup n p body = .returned := by
  rw [SendState.lookup]
  split
  · exact Or.inr rfl
  · rename_i peer _
    refine Or.inl ⟨_, rfl, rfl, rfl, ?_, ?_⟩
    · exact List.ne_nil_of_length_eq_add_one (ByteString.be_length 4 body.length)
    · cases s.wrote peer.writeStream with
      | false => simp [Writing.left, Writing.total, frame]
      | true => simp [Writing.left, Writing.total]

/-- Is the lock out of reach of a call in this state? -/
def SendCall.Quiet (codec : Codec Bytes) : SendCall → Prop
  | .writing _ => False
  | .waiting _ p body => codec.rawBytes p = .ok body
  | _ => True

theorem quiet_serialize (n : PeerID) (p : Packet) : (serialize codec n p).Quiet codec := by
  rcases serialize_cases codec n p with ⟨body, h, hb⟩ | h
  · rw [h]
    exact hb
  · rw [h]
    trivial

theorem quiet_assertNoQuit (n : PeerID) (p : Packet) : (assertNoQuit codec n p).Quiet codec := by
  cases p with
  | quit q => trivial
  | _ => exact quiet_serialize n _

/-- Where `wrote` can be set: in the write half of a test stream, while a
`poll_write` has bytes to write. -/
structure SendState.Flags (transport : TcpStream) (s : SendState) : Prop where
  test : transport = .tokio → ∀ stream, s.wrote stream = false
  polled : ∀ t w, s.calls t = .writing w → w.buf = [] → s.wrote w.stream = false

/-- The steps that leave the frames as they are. -/
inductive SendMove (codec : Codec Bytes) (transport : TcpStream) (s : SendState) :
    SendState → Prop
  /-- a call that does not write moves on to a state in which it does not either -/
  | quiet {t : ℕ} {c : SendCall} (ht : ∀ w, s.calls t ≠ .writing w) (hc : c.Quiet codec) :
      SendMove codec transport s { s with calls := Function.update s.calls t c }
  /-- a call gets the lock and has its frame before it -/
  | lock {t : ℕ} {n : PeerID} {p : Packet} {body : Bytes} {w : Writing}
      (ht : s.calls t = .waiting n p body) (hl : s.locked = none) (hp : w.packet = p)
      (hb : w.body = body) (hbuf : w.buf ≠ []) (hw : w.left (s.wrote w.stream) = w.total) :
      SendMove codec transport s
        { s with locked := some t, calls := Function.update s.calls t (.writing w) }
  /-- the call with the lock appends some of what is left, and moves on -/
  | write {t : ℕ} {w w' : Writing} {bytes : Bytes} {wrote : Bool} (ht : s.calls t = .writing w)
      (hs : w'.stream = w.stream) (hp : w'.packet = w.packet) (htotal : w'.total = w.total)
      (hb : w'.body = w.body) (hl : bytes ++ w'.left wrote = w.left (s.wrote w.stream))
      (hbuf : w'.buf = [] → wrote = false) (htest : transport = .tokio → wrote = false) :
      SendMove codec transport s { s with
        calls := Function.update s.calls t (.writing w')
        written := Function.update s.written w.stream (s.written w.stream ++ bytes)
        wrote := Function.update s.wrote w.stream wrote }
  /-- somebody else changes the entries -/
  | change (pool : ConnectionPool) : SendMove codec transport s { s with pool := pool }

/-- How a call leaves its stream clean: with its frame, or with nothing. -/
def Writing.Ends (w : Writing) (wrote : Bool) (sent : Bool) : Prop :=
  if sent then w.CanReturn else w.left wrote = w.total

theorem Writing.left_eq_nil_of_isWhole {w : Writing} {wrote : Bool} (h : w.isWhole wrote = true) :
    w.left wrote = [] := by
  rw [Writing.isWhole, Bool.and_eq_true, List.isEmpty_iff] at h
  exact h.2

/-- A call can be stopped with its whole frame on the stream, or with nothing. -/
theorem Writing.canStop_iff_ends (w : Writing) (wrote : Bool) :
    w.CanStop wrote ↔ w.Ends wrote (w.isWhole wrote) := by
  cases h : w.isWhole wrote with
  | false => simp [Writing.CanStop, Writing.Ends, h]
  | true =>
    have hskips : w.skips = false := by
      rw [Writing.isWhole, Bool.and_eq_true, Bool.not_eq_true'] at h
      exact h.1
    have hne : w.left wrote ≠ w.total := by
      rw [Writing.left_eq_nil_of_isWhole h, Writing.total, hskips]
      exact (frame_ne_nil w.body).symm
    simp [Writing.CanStop, Writing.Ends, Writing.CanReturn, h, hne, hskips]

theorem SendState.release_sent (s : SendState) (t : ℕ) (w : Writing) (outcome : SendCall) :
    (s.release t w outcome true).sent =
      Function.update s.sent w.stream (s.sent w.stream ++ [w.packet]) := rfl

/-- The condition on a step that stops a call. -/
theorem keepsFrames_stop_iff {s : SendState} {t : ℕ} {w : Writing} (ht : s.calls t = .writing w) :
    (∀ w', s.calls t = .writing w' → w'.CanStop (s.wrote w'.stream)) ↔
      w.Ends (s.wrote w.stream) (w.isWhole (s.wrote w.stream)) := by
  rw [← Writing.canStop_iff_ends]
  refine ⟨fun h => h w ht, fun h w' hw' => ?_⟩
  rw [ht] at hw'
  cases hw'
  exact h

/-- **What a step does**: it leaves the frames as they are, or the call with the
lock lets go of it. -/
theorem sendStep_cases {s s' : SendState} {l : SendLabel} (flags : s.Flags transport)
    (h : sendStep codec transport s l = some s') :
    (SendMove codec transport s s' ∧ KeepsFrames s l) ∨
      ∃ t w outcome sent, s.calls t = .writing w ∧ outcome.Quiet codec ∧
        (sent = true → w.left (s.wrote w.stream) = []) ∧ s' = s.release t w outcome sent ∧
        (KeepsFrames s l ↔ w.Ends (s.wrote w.stream) sent) := by
  cases l with
  | sendPacket t n p =>
    rw [sendStep] at h
    cases ht : s.calls t with
    | notCalled =>
      rw [ht] at h
      cases h
      refine Or.inl ⟨.quiet (fun w hw => ?_) (quiet_assertNoQuit n p), trivial⟩
      rw [ht] at hw
      cases hw
    | _ => rw [ht] at h; cases h
  | sendPacketUnchecked t n p =>
    rw [sendStep] at h
    cases ht : s.calls t with
    | notCalled =>
      rw [ht] at h
      cases h
      exact Or.inl ⟨.quiet (fun w hw => by rw [ht] at hw; cases hw) (quiet_serialize n p), trivial⟩
    | _ => rw [ht] at h; cases h
  | lock t =>
    rw [sendStep] at h
    split at h
    · rename_i n p body ht hl
      left
      rcases s.lookup_cases n p body with ⟨w, hw, hp, hb, hbuf, hleft⟩ | hr
      · rw [hw] at h
        cases h
        exact ⟨.lock ht hl hp hb hbuf hleft, trivial⟩
      · rw [hr] at h
        cases h
        exact ⟨.quiet (c := .returned) (fun w hw => by rw [ht] at hw; cases hw) trivial, trivial⟩
    · cases h
  | write t k =>
    rw [sendStep] at h
    cases ht : s.calls t with
    | writing w =>
      cases transport with
      | tokio =>
        simp only [ht] at h
        split at h
        · have hwrote := flags.test rfl w.stream
          have hs' : s' = { s with
              calls := Function.update s.calls t (.writing { w with buf := w.buf.drop k })
              written := Function.update s.written w.stream (s.written w.stream ++ w.buf.take k)
              wrote := Function.update s.wrote w.stream false } := by
            rw [← hwrote, Function.update_eq_self]
            exact (Option.some.inj h).symm
          rw [hs']
          refine Or.inl ⟨.write ht rfl rfl rfl rfl ?_ (fun _ => rfl) (fun _ => rfl), trivial⟩
          simp [Writing.left, hwrote, ← List.append_assoc]
        · cases h
      | test =>
        simp only [ht] at h
        split at h
        · rename_i hk
          obtain ⟨hwrote, hpos, rfl⟩ := hk
          have hs' : s' = { s with
              calls := Function.update s.calls t (.writing w)
              written := Function.update s.written w.stream (s.written w.stream ++ w.buf)
              wrote := Function.update s.wrote w.stream true } := by
            rw [← ht, Function.update_eq_self]
            exact (Option.some.inj h).symm
          rw [hs']
          refine Or.inl ⟨.write ht rfl rfl rfl rfl ?_ (fun hbuf => ?_) (fun hc => ?_), trivial⟩
          · simp [Writing.left, hwrote]
          · rw [hbuf, List.length_nil] at hpos
            omega
          · cases hc
        · cases h
    | _ => simp [ht] at h
  | wake t =>
    rw [sendStep] at h
    cases ht : s.calls t with
    | writing w =>
      simp only [ht] at h
      split at h
      · rename_i hw
        obtain ⟨hwrote, hbuf⟩ := hw
        have hs' : s' = { s with
            calls := Function.update s.calls t (.writing { w with buf := [] })
            written := Function.update s.written w.stream (s.written w.stream ++ [])
            wrote := Function.update s.wrote w.stream false } := by
          rw [List.append_nil, Function.update_eq_self]
          exact (Option.some.inj h).symm
        rw [hs']
        refine Or.inl ⟨.write ht rfl rfl rfl rfl ?_ (fun _ => rfl) (fun _ => rfl), trivial⟩
        simp [Writing.left, hwrote]
      · cases h
    | _ => simp [ht] at h
  | next t =>
    rw [sendStep] at h
    cases ht : s.calls t with
    | writing w =>
      simp only [ht] at h
      obtain ⟨stream, p, body, buf, rest, skips⟩ := w
      cases buf with
      | cons b buf => simp at h
      | nil =>
        have hwrote : s.wrote stream = false := flags.polled t _ ht rfl
        cases rest with
        | cons buf rest =>
          have hs' : s' = { s with
              calls := Function.update s.calls t (.writing ⟨stream, p, body, buf, rest, skips⟩)
              written := Function.update s.written stream (s.written stream ++ [])
              wrote := Function.update s.wrote stream false } := by
            rw [List.append_nil, Function.update_eq_self, ← hwrote, Function.update_eq_self]
            exact (Option.some.inj h).symm
          rw [hs']
          refine Or.inl ⟨.write ht rfl rfl rfl rfl ?_ (fun _ => rfl) (fun _ => rfl),
            fun w hw _ hrest => ?_⟩
          · simp [Writing.left, hwrote]
          · rw [ht] at hw
            cases hw
            cases hrest
        | nil =>
          refine Or.inr ⟨t, _, .returned, true, ht, trivial, fun _ => ?_,
            (Option.some.inj h).symm, ?_⟩
          · simp [Writing.left]
          · refine ⟨fun hk => hk _ ht rfl rfl, fun hc w hw _ _ => ?_⟩
            rw [ht] at hw
            cases hw
            exact hc
    | _ => simp [ht] at h
  | fail t =>
    rw [sendStep] at h
    cases ht : s.calls t with
    | writing w =>
      simp only [ht] at h
      split at h
      · cases h
      · exact Or.inr ⟨t, w, .panicked, _, ht, trivial, Writing.left_eq_nil_of_isWhole,
          (Option.some.inj h).symm, keepsFrames_stop_iff ht⟩
    | _ => simp [ht] at h
  | drop t =>
    rw [sendStep] at h
    cases ht : s.calls t with
    | waiting n p body =>
      rw [ht] at h
      cases h
      exact Or.inl ⟨.quiet (fun w hw => by rw [ht] at hw; cases hw) trivial,
        fun w hw => by rw [ht] at hw; cases hw⟩
    | writing w =>
      simp only [ht] at h
      split at h
      · cases h
      · exact Or.inr ⟨t, w, .dropped, _, ht, trivial, Writing.left_eq_nil_of_isWhole,
          (Option.some.inj h).symm, keepsFrames_stop_iff ht⟩
    | _ => rw [ht] at h; cases h
  | change pool =>
    rw [sendStep] at h
    split at h
    · cases h
      exact Or.inl ⟨.change pool, trivial⟩
    · cases h

/-! ### The invariant -/

/-- A stream holds the frames of the packets sent on it, and then some bytes. -/
def SendState.Holds (codec : Codec Bytes) (s : SendState) (stream : StreamId) (done : Bytes) :
    Prop :=
  ∃ bodies, Encodes codec (s.sent stream) bodies ∧ (∀ body ∈ bodies, body.length < maxPacketSize) ∧
    s.written stream = bodies.flatMap frame ++ done

structure SendInv (codec : Codec Bytes) (transport : TcpStream) (s : SendState) : Prop where
  flags : s.Flags transport
  holder : ∀ t w, s.calls t = .writing w → s.locked = some t
  waiting : ∀ t n p body, s.calls t = .waiting n p body → codec.rawBytes p = .ok body
  writing : ∀ t w, s.calls t = .writing w → codec.rawBytes w.packet = .ok w.body ∧
    ∃ done, done ++ w.left (s.wrote w.stream) = w.total ∧ s.Holds codec w.stream done
  idle : ∀ stream, ¬ s.Busy stream → s.Holds codec stream []

theorem SendInv.init (pool : ConnectionPool) : SendInv codec transport (SendState.init pool) where
  flags := ⟨fun _ _ => rfl, fun _ _ _ _ => rfl⟩
  holder t w h := by cases h
  waiting t n p body h := by cases h
  writing t w h := by cases h
  idle stream _ := ⟨[], .nil, fun _ h => (by cases h), rfl⟩

theorem SendInv.eq_of_writing {s : SendState} (inv : SendInv codec transport s) {t u : ℕ}
    {w w' : Writing} (ht : s.calls t = .writing w) (hu : s.calls u = .writing w') : t = u := by
  have h := (inv.holder t w ht).symm.trans (inv.holder u w' hu)
  exact Option.some.inj h

/-- The streams of the other calls are not touched, and there are none that write. -/
theorem SendInv.not_busy_of_ne {s : SendState} (inv : SendInv codec transport s) {t : ℕ}
    {w : Writing} (ht : s.calls t = .writing w) {stream : StreamId} (hne : stream ≠ w.stream) :
    ¬ s.Busy stream := by
  rintro ⟨u, w', hu, rfl⟩
  obtain rfl := inv.eq_of_writing ht hu
  rw [ht] at hu
  cases hu
  exact hne rfl

theorem SendInv.move {s s' : SendState} (inv : SendInv codec transport s)
    (h : SendMove codec transport s s') : SendInv codec transport s' := by
  cases h with
  | @quiet t c ht hc =>
    have hwriting : ∀ u w, Function.update s.calls t c u = .writing w → s.calls u = .writing w := by
      intro u w hu
      rcases update_eq_cases hu with ⟨-, rfl⟩ | ⟨-, hu⟩
      · exact absurd hc (fun h => h)
      · exact hu
    refine ⟨⟨inv.flags.test, fun u w hu => inv.flags.polled u w (hwriting u w hu)⟩,
      fun u w hu => inv.holder u w (hwriting u w hu), fun u n p body hu => ?_,
      fun u w hu => inv.writing u w (hwriting u w hu), fun stream hb => ?_⟩
    · rcases update_eq_cases hu with ⟨-, rfl⟩ | ⟨-, hu⟩
      · exact hc
      · exact inv.waiting u n p body hu
    · refine inv.idle stream ?_
      rintro ⟨u, w, hu, hw⟩
      have hut : u ≠ t := fun hut => ht w (hut ▸ hu)
      exact hb ⟨u, w, (Function.update_of_ne hut _ _).trans hu, hw⟩
  | @lock t n p body w ht hl hp hb hbuf hw =>
    have hnone : ∀ u w', s.calls u ≠ .writing w' := fun u w' hu => by
      rw [inv.holder u w' hu] at hl
      cases hl
    refine ⟨⟨inv.flags.test, fun u w' hu hbuf' => ?_⟩, fun u w' hu => ?_,
      fun u n' p' body' hu => ?_, fun u w' hu => ?_, fun stream hb' => ?_⟩
    · rcases update_eq_cases hu with ⟨-, heq⟩ | ⟨-, hu⟩
      · cases heq
        exact absurd hbuf' hbuf
      · exact absurd hu (hnone u w')
    · rcases update_eq_cases hu with ⟨rfl, -⟩ | ⟨-, hu⟩
      · rfl
      · exact absurd hu (hnone u w')
    · rcases update_eq_cases hu with ⟨-, heq⟩ | ⟨-, hu⟩
      · cases heq
      · exact inv.waiting u n' p' body' hu
    · rcases update_eq_cases hu with ⟨rfl, heq⟩ | ⟨-, hu⟩
      · cases heq
        refine ⟨?_, [], hw, inv.idle _ ?_⟩
        · rw [hp, hb]
          exact inv.waiting u n p body ht
        · rintro ⟨v, w'', hv, -⟩
          exact hnone v w'' hv
      · exact absurd hu (hnone u w')
    · refine inv.idle stream ?_
      rintro ⟨u, w', hu, -⟩
      exact hnone u w' hu
  | @write t w w' bytes wrote ht hs hp htotal hb hl hbuf htest =>
    refine ⟨⟨fun htokio stream => ?_, fun u w'' hu hbuf' => ?_⟩, fun u w'' hu => ?_,
      fun u n p body hu => ?_, fun u w'' hu => ?_, fun stream hb' => ?_⟩
    · by_cases hstream : stream = w.stream
      · subst hstream
        exact (Function.update_self ..).trans (htest htokio)
      · exact (Function.update_of_ne hstream ..).trans (inv.flags.test htokio stream)
    · rcases update_eq_cases hu with ⟨rfl, heq⟩ | ⟨hut, hu⟩
      · cases heq
        rw [hs]
        exact (Function.update_self ..).trans (hbuf hbuf')
      · exact absurd (inv.eq_of_writing hu ht) hut
    · rcases update_eq_cases hu with ⟨rfl, -⟩ | ⟨-, hu⟩
      · exact inv.holder u w ht
      · exact inv.holder u w'' hu
    · rcases update_eq_cases hu with ⟨-, heq⟩ | ⟨-, hu⟩
      · cases heq
      · exact inv.waiting u n p body hu
    · rcases update_eq_cases hu with ⟨rfl, heq⟩ | ⟨hut, hu⟩
      · cases heq
        obtain ⟨henc, done, hdone, bodies, hbodies, hmax, hwritten⟩ := inv.writing u w ht
        refine ⟨by rw [hp, hb]; exact henc, done ++ bytes, ?_, bodies, ?_, hmax, ?_⟩
        · simp only [hs, Function.update_self]
          rw [List.append_assoc, hl, hdone, htotal]
        · rw [hs]
          exact hbodies
        · simp only [hs, Function.update_self, hwritten, List.append_assoc]
      · exact absurd (inv.eq_of_writing hu ht) hut
    · have hne : stream ≠ w.stream := fun heq =>
        hb' ⟨t, w', Function.update_self _ _ _, hs.trans heq.symm⟩
      obtain ⟨bodies, hbodies, hmax, hwritten⟩ := inv.idle stream (inv.not_busy_of_ne ht hne)
      exact ⟨bodies, hbodies, hmax, (Function.update_of_ne hne _ _).trans hwritten⟩
  | change pool =>
    exact ⟨⟨inv.flags.test, inv.flags.polled⟩, inv.holder, inv.waiting, inv.writing, inv.idle⟩

/-- No call is writing once the lock is let go. -/
theorem SendInv.release_not_writing {s : SendState} (inv : SendInv codec transport s) {t : ℕ}
    {w : Writing} {outcome : SendCall} (sent : Bool) (ht : s.calls t = .writing w)
    (ho : outcome.Quiet codec) (u : ℕ) (w' : Writing) :
    (s.release t w outcome sent).calls u ≠ .writing w' := by
  intro hu
  rcases update_eq_cases hu with ⟨-, rfl⟩ | ⟨hut, hu⟩
  · exact ho
  · exact hut (inv.eq_of_writing hu ht)

theorem SendInv.release {s : SendState} (inv : SendInv codec transport s) {t : ℕ} {w : Writing}
    {outcome : SendCall} {sent : Bool} (ht : s.calls t = .writing w) (ho : outcome.Quiet codec)
    (hsent : sent = true → w.left (s.wrote w.stream) = [])
    (hend : w.Ends (s.wrote w.stream) sent) :
    SendInv codec transport (s.release t w outcome sent) := by
  have hnone := inv.release_not_writing sent ht ho
  refine ⟨⟨inv.flags.test, fun u w' hu => absurd hu (hnone u w')⟩,
    fun u w' hu => absurd hu (hnone u w'), fun u n p body hu => ?_,
    fun u w' hu => absurd hu (hnone u w'), fun stream _ => ?_⟩
  · rcases update_eq_cases hu with ⟨-, rfl⟩ | ⟨-, hu⟩
    · exact ho
    · exact inv.waiting u n p body hu
  · obtain ⟨henc, done, hdone, bodies, hbodies, hmax, hwritten⟩ := inv.writing t w ht
    by_cases hstream : stream = w.stream
    · subst hstream
      cases sent with
      | false =>
        -- nothing of the frame is on the stream
        have hleft : w.left (s.wrote w.stream) = w.total := hend
        rw [hleft, List.append_left_eq_self] at hdone
        subst hdone
        exact ⟨bodies, hbodies, hmax, hwritten⟩
      | true =>
        -- all of it is
        obtain ⟨hskips, hlen⟩ : w.CanReturn := hend
        rw [hsent rfl, List.append_nil, Writing.total, hskips] at hdone
        subst hdone
        refine ⟨bodies ++ [w.body], ?_, ?_, ?_⟩
        · rw [SendState.release_sent, Function.update_self]
          exact List.rel_append hbodies (.cons henc .nil)
        · intro body hbody
          rcases List.mem_append.mp hbody with hbody | hbody
          · exact hmax body hbody
          · rw [List.mem_singleton.mp hbody]
            exact hlen
        · rw [List.append_nil, List.flatMap_append, List.flatMap_singleton]
          exact hwritten
    · obtain ⟨bodies', hbodies', hmax', hwritten'⟩ :=
        inv.idle stream (inv.not_busy_of_ne ht hstream)
      refine ⟨bodies', ?_, hmax', hwritten'⟩
      cases sent with
      | false => exact hbodies'
      | true =>
        rw [SendState.release_sent, Function.update_of_ne hstream]
        exact hbodies'

theorem Encodes.unique {packets : List Packet} {bodies bodies' : List Bytes}
    (h : Encodes codec packets bodies) (h' : Encodes codec packets bodies') : bodies = bodies' := by
  induction h generalizing bodies' with
  | nil => cases h'; rfl
  | cons hp _ ih =>
    cases h' with
    | cons hp' h' =>
      rw [hp] at hp'
      rw [Except.ok.inj hp', ih h']

theorem Encodes.decode {packets : List Packet} {bodies : List Bytes}
    (h : Encodes codec packets bodies)
    (hdec : ∀ p body, codec.rawBytes p = .ok body → codec.fromRawBytes body = .ok p) :
    bodies.map codec.fromRawBytes = packets.map .ok := by
  induction h with
  | nil => rfl
  | cons hp _ ih => rw [List.map_cons, List.map_cons, hdec _ _ hp, ih]

theorem SendState.Holds.intact {s : SendState} {stream : StreamId} (h : s.Holds codec stream [])
    (hdec : ∀ p body, codec.rawBytes p = .ok body → codec.fromRawBytes body = .ok p) :
    s.Intact codec stream := by
  obtain ⟨bodies, hbodies, hmax, hwritten⟩ := h
  rw [List.append_nil] at hwritten
  have hunframe := unframe_flatMap_frame_append maxPacketSize_le hmax []
  have hnil : unframe maxPacketSize [] = ([], []) := by
    refine unframe_of_not_complete fun body rest h => ?_
    cases h
  rw [hnil, List.append_nil, List.append_nil] at hunframe
  refine ⟨⟨bodies, hbodies, fun body hb => lt_of_lt_of_le (hmax body hb) maxPacketSize_le,
    hwritten⟩, ?_, ?_⟩
  · rw [hwritten, hunframe]
    exact hbodies.decode hdec
  · rw [hwritten, hunframe]

/-- What is appended by a call whose length was skipped is no frame of its body. -/
theorem Writing.skips_eq_false_of_total {w : Writing} (h : w.total = frame w.body) :
    w.skips = false := by
  cases hskips : w.skips with
  | false => rfl
  | true =>
    rw [Writing.total, hskips, if_pos rfl] at h
    have hlen := congrArg List.length h
    rw [frame_length] at hlen
    omega

/-- **Letting go of the lock in the middle of a frame, without its length, or
behind one that is too large, spoils the stream.** -/
theorem SendInv.not_allIntact_release {s : SendState} (inv : SendInv codec transport s) {t : ℕ}
    {w : Writing} {outcome : SendCall} {sent : Bool} (ht : s.calls t = .writing w)
    (ho : outcome.Quiet codec) (hsent : sent = true → w.left (s.wrote w.stream) = [])
    (hend : ¬ w.Ends (s.wrote w.stream) sent) :
    ¬ (s.release t w outcome sent).AllIntact codec := by
  intro hall
  obtain ⟨⟨bodies', hbodies', hlen', hwritten'⟩, -, hnothing⟩ := hall w.stream (by
    rintro ⟨u, w', hu, -⟩
    exact inv.release_not_writing _ ht ho u w' hu)
  obtain ⟨henc, done, hdone, bodies, hbodies, hmax, hwritten⟩ := inv.writing t w ht
  have hw : (s.release t w outcome sent).written w.stream = bodies.flatMap frame ++ done := hwritten
  cases sent with
  | true =>
    rw [hsent rfl, List.append_nil] at hdone
    rw [SendState.release_sent, Function.update_self] at hbodies'
    have heq := Encodes.unique hbodies' (List.rel_append hbodies (.cons henc .nil))
    -- what was appended is the frame of the body
    have htotal : w.total = frame w.body := by
      rw [hw, heq, List.flatMap_append, List.flatMap_singleton, hdone] at hwritten'
      exact List.append_cancel_left hwritten'
    have hbody : w.body.length < 256 ^ 4 :=
      hlen' w.body (heq ▸ List.mem_append_right _ (List.mem_singleton_self _))
    -- so the body is too large
    have hlarge : maxPacketSize ≤ w.body.length := by
      by_contra hlt
      exact hend ⟨Writing.skips_eq_false_of_total htotal, not_le.mp hlt⟩
    have hrefused := parse_frame_tooLarge hlarge hbody
    rw [hw, hdone, htotal, unframe_flatMap_frame_append maxPacketSize_le hmax,
      unframe_of_not_complete fun body rest h => by rw [hrefused] at h; cases h] at hnothing
    exact frame_ne_nil _ hnothing
  | false =>
    -- what is there of the frame is no frame
    have hbodies'' : Encodes codec (s.sent w.stream) bodies' := hbodies'
    rw [Encodes.unique hbodies'' hbodies, hw, List.append_right_eq_self] at hwritten'
    rw [hwritten', List.nil_append] at hdone
    exact hend hdone

/-- **When streams stay intact.**  In every run from a pool that nobody has sent
on, over either transport, all streams are intact whenever no call is writing on
them, in every state of the run, exactly when each call that has the lock lets go
of it with nothing on the stream or with its frame, whose length was not skipped
and whose body is below `MAX_PACKET_SIZE`. -/
theorem send_keeps_frames_iff (codec : Codec Bytes) (transport : TcpStream) (pool : ConnectionPool)
    (hdec : ∀ p body, codec.rawBytes p = .ok body → codec.fromRawBytes body = .ok p)
    (labels : List SendLabel) (s : SendState)
    (hrun : exec (sendStep codec transport) (SendState.init pool) labels = some s) :
    Always (sendStep codec transport) (SendState.AllIntact codec) (SendState.init pool) labels ↔
      Meets (sendStep codec transport) KeepsFrames (SendState.init pool) labels := by
  refine always_iff_meets (I := SendInv codec transport) ?_ ?_ ?_ hrun (SendInv.init pool)
  · intro s l s' inv hok hstep
    rcases sendStep_cases inv.flags hstep with
      ⟨hmove, -⟩ | ⟨t, w, outcome, sent, ht, ho, hsent, rfl, hiff⟩
    · exact inv.move hmove
    · exact inv.release ht ho hsent (hiff.mp hok)
  · intro s inv stream hb
    exact (inv.idle stream hb).intact hdec
  · intro s l s' inv hbad hstep
    rcases sendStep_cases inv.flags hstep with
      ⟨-, hok⟩ | ⟨t, w, outcome, sent, ht, ho, hsent, rfl, hiff⟩
    · exact absurd hok hbad
    · exact inv.not_allIntact_release ht ho hsent (fun hc => hbad (hiff.mpr hc))

/-! ### A dropped lookup -/

/-- A request for the values of a key, and a pool with one peer to send it to. -/
def lookupPacket : Packet :=
  .findDhtValue ⟨0, ⟨realSha256 []⟩, maxDhtPeersReturned, maxDhtValuesReturned⟩

def onePeerPool (n : PeerID) : ConnectionPool :=
  ⟨(∅ : Std.ExtTreeMap PeerID PeerInfo).insert n ⟨"local-1", 0, none, 0⟩, ⟨realSha256 []⟩⟩

theorem onePeerPool_getElem? (n : PeerID) :
    (onePeerPool n).connections[n]? = some ⟨"local-1", 0, none, 0⟩ :=
  Std.ExtTreeMap.getElem?_insert_self

theorem listCodec_assertNoQuit (n : PeerID) :
    assertNoQuit (listCodec [lookupPacket]) n lookupPacket = .waiting n lookupPacket [0] := by
  have h : (listCodec [lookupPacket]).rawBytes lookupPacket = .ok [0] := by
    simp [listCodec]
  simp only [assertNoQuit, lookupPacket, serialize] at h ⊢
  rw [h]

theorem be_four_one : ByteString.be 4 1 = [0, 0, 0, 1] := by decide

/-- A lookup asks the peer, and its request gets the lock. -/
def locking (t : ℕ) (n : PeerID) : List SendLabel := [.sendPacket t n lookupPacket, .lock t]

theorem exec_locking {s : SendState} {t : ℕ} {n : PeerID} (ht : s.calls t = .notCalled)
    (hl : s.locked = none) (hpool : s.pool = onePeerPool n) :
    exec (sendStep (listCodec [lookupPacket]) transport) s (locking t n) = some { s with
      locked := some t
      calls := Function.update s.calls t
        (.writing ⟨0, lookupPacket, [0], [0, 0, 0, 1], [[0]], s.wrote 0⟩) } := by
  simp [locking, exec, sendStep, ht, hl, hpool, listCodec_assertNoQuit, SendState.lookup,
    onePeerPool_getElem?, be_four_one]

/-- The request is dropped between its length and its body. -/
def cutOff (n : PeerID) : TcpStream → List SendLabel
  | .tokio => locking 0 n ++ [.write 0 4, .next 0, .drop 0]
  | .test => locking 0 n ++ [.write 0 4, .wake 0, .next 0, .drop 0]

theorem exec_cutOff (n : PeerID) (transport : TcpStream) :
    exec (sendStep (listCodec [lookupPacket]) transport) (SendState.init (onePeerPool n))
      (cutOff n transport) = some { SendState.init (onePeerPool n) with
        calls := Function.update (fun _ => .notCalled) 0 .dropped
        written := Function.update (fun _ => []) 0 [0, 0, 0, 1] } := by
  cases transport with
  | tokio =>
    rw [cutOff, exec_append_of (exec_locking rfl rfl rfl)]
    simp [exec, sendStep, SendState.init, SendState.release, Writing.isWhole, Writing.left]
  | test =>
    rw [cutOff, exec_append_of (exec_locking rfl rfl rfl)]
    simp [exec, sendStep, SendState.init, SendState.release, Writing.isWhole, Writing.left]

/-- **A dropped lookup splits a frame.**  The future of a lookup is dropped
between the length and the body of its request, and what is on the stream, one of
`tokio` or a test stream, is no concatenation of frames. -/
theorem dropped_lookup_splits_frame :
    ∃ (codec : Codec Bytes) (pool : ConnectionPool),
      (∀ p body, codec.rawBytes p = .ok body → codec.fromRawBytes body = .ok p) ∧
      ∀ transport, ∃ labels s,
        exec (sendStep codec transport) (SendState.init pool) labels = some s ∧
          ¬ s.AllIntact codec := by
  refine ⟨listCodec [lookupPacket], onePeerPool ⟨realSha256 [1]⟩,
    fun p body => listCodec_decodes (by decide),
    fun transport => ⟨_, _, exec_cutOff _ transport, ?_⟩⟩
  intro hall
  obtain ⟨⟨bodies, hbodies, -, hwritten⟩, -, -⟩ := hall 0 (by
    rintro ⟨t, w, ht, -⟩
    have hcall : Function.update (fun _ => SendCall.notCalled) 0 .dropped t = .writing w := ht
    rcases update_eq_cases hcall with ⟨-, h⟩ | ⟨-, h⟩
    · cases h
    · cases h)
  -- nothing was sent, and four bytes are on the stream
  cases hbodies
  cases hwritten

/-- A request on a test stream, up to where its body is appended. -/
def appending (t : ℕ) (n : PeerID) : List SendLabel :=
  locking t n ++ [.write t 4, .wake t, .next t, .write t 1]

theorem exec_appending {s : SendState} {t : ℕ} {n : PeerID} (ht : s.calls t = .notCalled)
    (hl : s.locked = none) (hpool : s.pool = onePeerPool n) (hwrote : s.wrote 0 = false) :
    exec (sendStep (listCodec [lookupPacket]) .test) s (appending t n) = some { s with
      locked := some t
      calls := Function.update s.calls t (.writing ⟨0, lookupPacket, [0], [0], [], false⟩)
      written := Function.update s.written 0 (s.written 0 ++ [0, 0, 0, 1, 0])
      wrote := Function.update s.wrote 0 true } := by
  rw [appending, exec_append_of (exec_locking ht hl hpool)]
  simp [exec, sendStep, hwrote]

theorem meets_appending {s : SendState} {t : ℕ} {n : PeerID} (ht : s.calls t = .notCalled)
    (hl : s.locked = none) (hpool : s.pool = onePeerPool n) (hwrote : s.wrote 0 = false) :
    Meets (sendStep (listCodec [lookupPacket]) .test) KeepsFrames s (appending t n) := by
  simp [Meets, appending, locking, sendStep, KeepsFrames, ht, hl, hpool, listCodec_assertNoQuit,
    SendState.lookup, onePeerPool_getElem?, be_four_one, hwrote]

theorem exec_droppedFirst {s : SendState} {t : ℕ} {n : PeerID} (ht : s.calls t = .notCalled)
    (hl : s.locked = none) (hpool : s.pool = onePeerPool n) (hwrote : s.wrote 0 = false) :
    exec (sendStep (listCodec [lookupPacket]) .test) s (locking t n ++ [.drop t]) =
        some { s with calls := Function.update s.calls t .dropped } ∧
      Meets (sendStep (listCodec [lookupPacket]) .test) KeepsFrames s
        (locking t n ++ [.drop t]) := by
  constructor
  · rw [exec_append_of (exec_locking ht hl hpool)]
    simp [exec, sendStep, SendState.release, Writing.isWhole, Writing.left, hwrote, hl]
  · simp [Meets, locking, sendStep, KeepsFrames, ht, hl, hpool, hwrote, listCodec_assertNoQuit,
      SendState.lookup, onePeerPool_getElem?, be_four_one, Writing.CanStop, Writing.left,
      Writing.total, frame]

theorem exec_returned {s : SendState} {t : ℕ} {n : PeerID} (ht : s.calls t = .notCalled)
    (hl : s.locked = none) (hpool : s.pool = onePeerPool n) (hwrote : s.wrote 0 = false) :
    exec (sendStep (listCodec [lookupPacket]) .test) s (appending t n ++ [.wake t, .next t]) =
        some { s with
          calls := Function.update s.calls t .returned
          written := Function.update s.written 0 (s.written 0 ++ [0, 0, 0, 1, 0])
          wrote := Function.update s.wrote 0 false
          sent := Function.update s.sent 0 (s.sent 0 ++ [lookupPacket]) } ∧
      Meets (sendStep (listCodec [lookupPacket]) .test) KeepsFrames s
        (appending t n ++ [.wake t, .next t]) := by
  constructor
  · rw [exec_append_of (exec_appending ht hl hpool hwrote)]
    simp [exec, sendStep, SendState.release, hl]
  · refine (meets_appending ht hl hpool hwrote).append (exec_appending ht hl hpool hwrote) ?_
    simp [Meets, KeepsFrames, sendStep, Writing.CanReturn, maxPacketSize]

/-- A request that is dropped after its last byte, before the reader is woken. -/
theorem exec_droppedLast {s : SendState} {t : ℕ} {n : PeerID} (ht : s.calls t = .notCalled)
    (hl : s.locked = none) (hpool : s.pool = onePeerPool n) (hwrote : s.wrote 0 = false) :
    exec (sendStep (listCodec [lookupPacket]) .test) s (appending t n ++ [.drop t]) =
        some { s with
          calls := Function.update s.calls t .dropped
          written := Function.update s.written 0 (s.written 0 ++ [0, 0, 0, 1, 0])
          wrote := Function.update s.wrote 0 true
          sent := Function.update s.sent 0 (s.sent 0 ++ [lookupPacket]) } ∧
      Meets (sendStep (listCodec [lookupPacket]) .test) KeepsFrames s
        (appending t n ++ [.drop t]) := by
  constructor
  · rw [exec_append_of (exec_appending ht hl hpool hwrote)]
    simp [exec, sendStep, SendState.release, Writing.isWhole, Writing.left, hl]
  · refine (meets_appending ht hl hpool hwrote).append (exec_appending ht hl hpool hwrote) ?_
    simp [Meets, KeepsFrames, sendStep, Writing.CanStop, Writing.isWhole, Writing.left,
      maxPacketSize]

/-- A request whose length is skipped, because `wrote` is still set. -/
theorem exec_skipped {s : SendState} {t : ℕ} {n : PeerID} (ht : s.calls t = .notCalled)
    (hl : s.locked = none) (hpool : s.pool = onePeerPool n) (hwrote : s.wrote 0 = true) :
    (∃ s', exec (sendStep (listCodec [lookupPacket]) .test) s
        (locking t n ++ [.wake t, .next t, .write t 1, .wake t, .next t]) = some s') ∧
      ¬ Meets (sendStep (listCodec [lookupPacket]) .test) KeepsFrames s
        (locking t n ++ [.wake t, .next t, .write t 1, .wake t, .next t]) := by
  constructor
  · rw [exec_append_of (exec_locking ht hl hpool)]
    simp [exec, sendStep, hwrote]
  · intro h
    have hrest := h.append_right (exec_locking ht hl hpool)
    simp [Meets, KeepsFrames, sendStep, hwrote, Writing.CanReturn] at hrest

/-- Three requests that keep the frames whole. -/
def keptWhole (n : PeerID) : List SendLabel :=
  (locking 0 n ++ [.drop 0]) ++ ((appending 1 n ++ [.wake 1, .next 1]) ++
    (appending 2 n ++ [.drop 2]))

theorem exec_keptWhole (n : PeerID) :
    ∃ s, (exec (sendStep (listCodec [lookupPacket]) .test) (SendState.init (onePeerPool n))
        (keptWhole n) = some s ∧
      Meets (sendStep (listCodec [lookupPacket]) .test) KeepsFrames
        (SendState.init (onePeerPool n)) (keptWhole n)) ∧
      s.calls 3 = .notCalled ∧ s.locked = none ∧ s.pool = onePeerPool n ∧ s.wrote 0 = true :=
  ⟨_, exec_meets_append (exec_droppedFirst rfl rfl rfl rfl) (exec_meets_append
    (exec_returned rfl rfl rfl rfl) (exec_droppedLast rfl rfl rfl rfl)), rfl, rfl, rfl, rfl⟩

/-- Two runs with dropped requests: in the first the streams stay intact, and in
the second a request that comes after it goes out without its length. -/
theorem send_keeps_frames_iff_dropped :
    Always (sendStep (listCodec [lookupPacket]) .test)
        (SendState.AllIntact (listCodec [lookupPacket]))
        (SendState.init (onePeerPool ⟨realSha256 [1]⟩)) (keptWhole ⟨realSha256 [1]⟩) ∧
      ¬ Always (sendStep (listCodec [lookupPacket]) .test)
        (SendState.AllIntact (listCodec [lookupPacket]))
        (SendState.init (onePeerPool ⟨realSha256 [1]⟩)) (keptWhole ⟨realSha256 [1]⟩ ++
          (locking 3 ⟨realSha256 [1]⟩ ++ [.wake 3, .next 3, .write 3 1, .wake 3, .next 3])) := by
  obtain ⟨s, ⟨hrun, hmeets⟩, ht, hl, hpool, hwrote⟩ := exec_keptWhole ⟨realSha256 [1]⟩
  obtain ⟨⟨s', hrun'⟩, hnot⟩ := exec_skipped ht hl hpool hwrote
  have hdec : ∀ p body, (listCodec [lookupPacket]).rawBytes p = .ok body →
      (listCodec [lookupPacket]).fromRawBytes body = .ok p :=
    fun p body => listCodec_decodes (by decide)
  refine ⟨(send_keeps_frames_iff _ .test _ hdec _ s hrun).mpr hmeets, ?_⟩
  rw [send_keeps_frames_iff _ .test _ hdec _ s' ((exec_append_of hrun).trans hrun')]
  exact fun h => hnot (h.append_right hrun)

end Tewta
