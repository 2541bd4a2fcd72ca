import Tewta.Node.OnPacket
import Tewta.Node.System

/-!
# A peer that does not read

One mutex guards the pool, and `send_packet_unchecked` holds it while it writes.  A stream takes
what fits into its buffers, and more only when the peer at the other end reads.  The functions
of the pool are here the calls that take the lock; all but those that write let go of it
without a suspension.

A call that waits for a peer keeps all others out of the pool (`Stalled.exec`), and when its
write fails or its future is dropped they can go on (`Free.exists_returned`).
-/

namespace Tewta

open Transition

/-- `ConnectionPool::set_ping`. -/
def ConnectionPool.setPing (pool : ConnectionPool) (n : PeerID) (pingNanos : ℕ) :
    ConnectionPool :=
  match pool.connections[n]? with
  | some peer => pool.insert n { peer with pingNanos := some pingNanos }
  | none => pool

/-- The functions of the pool that only look at it. -/
inductive PoolRead
  | len
  | peers
  | peersWithAddrs
  | contains (n : PeerID)
  | peersOnBucket (bucketLevel bucketId : ℕ)
  | peersOnBucketAndUnder (bucketLevel : ℕ)
  | prepareDiscoverPeersResponse (shuffle : Shuffle) (p : DiscoverPeersPacket)
    (h : p.mask.length ≤ 32)

inductive PoolAnswer
  | number (k : ℕ)
  | yes (b : Bool)
  | ids (peers : List PeerID)
  | addrs (peers : List (PeerID × String))
  | response (p : DiscoverPeersRespPacket)

def PoolRead.answer (pool : ConnectionPool) : PoolRead → PoolAnswer
  | .len => .number pool.connections.size
  | .peers => .ids pool.peers
  | .peersWithAddrs => .addrs pool.peersWithAddrs
  | .contains n => .yes (pool.contains n)
  | .peersOnBucket bucketLevel bucketId => .ids (pool.peersOnBucket bucketLevel bucketId)
  | .peersOnBucketAndUnder bucketLevel => .ids (pool.peersOnBucketAndUnder bucketLevel)
  | .prepareDiscoverPeersResponse shuffle p h =>
    .response (pool.prepareDiscoverPeersResponse shuffle.apply p h)

/-- The functions of the pool that take its lock.  `insert` has the connection it is called with,
and `disconnect` is followed up to the removal. -/
inductive PoolOp
  | sendPacket (n : PeerID) (p : Packet)
  | disconnect (n : PeerID) (quit : QuitPacket)
  | insert (n : PeerID) (peer : PeerInfo)
  | setPing (n : PeerID) (pingNanos : ℕ)
  | read (r : PoolRead)

/-- Where a call stands.  While it is writing it has the lock, and `left` are the lengths of
what its calls of `write_all` have still to write. -/
inductive PoolStage
  | waiting
  | writing (stream : StreamId) (left : List ℕ)
  /-- `disconnect`, before it takes the lock again -/
  | removing
  | returned (answer : Option PoolAnswer)
  | panicked
  | dropped

structure PoolCall where
  op : PoolOp
  stage : PoolStage

/-- The pool and its lock, the calls by number, and the bytes in the buffers of each stream:
written, and not read by the peer. -/
structure StallState where
  pool : ConnectionPool
  lock : Option ℕ
  calls : ℕ → Option PoolCall
  buffered : StreamId → ℕ

inductive StallLabel
  | call (c : ℕ) (op : PoolOp)
  /-- a call gets the lock -/
  | lock (c : ℕ)
  /-- the stream takes some of the bytes it is offered -/
  | write (c : ℕ) (k : ℕ)
  /-- a `write_all` returns -/
  | next (c : ℕ)
  /-- a write fails -/
  | fail (c : ℕ)
  /-- the future of a call is dropped -/
  | drop (c : ℕ)
  /-- the peer at the other end of a stream reads -/
  | read (stream : StreamId) (k : ℕ)

/-- What a call does with the lock before it lets go of it or is suspended. -/
inductive Section
  | done (pool : ConnectionPool) (stage : PoolStage)
  | write (stream : StreamId) (left : List ℕ)

section Step

variable (codec : Codec Bytes)

/-- `send_packet_unchecked` up to the lock. -/
def sendStart (p : Packet) (next : PoolStage) : PoolStage :=
  match codec.rawBytes p with
  | .ok _ => .waiting
  | .error _ => next

/-- `send_packet` up to the lock. -/
def sendPacketStart (p : Packet) : PoolStage :=
  match p with
  | .quit _ => .panicked
  | _ => sendStart codec p (.returned none)

/-- A call up to the lock. -/
def PoolOp.start : PoolOp → PoolStage
  | .sendPacket _ p => sendPacketStart codec p
  | .disconnect _ quit => sendStart codec (.quit quit) .removing
  | _ => .waiting

/-- The lengths of the two calls of `write_all` for a packet. -/
def frameLengths (p : Packet) : Option (List ℕ) :=
  match codec.rawBytes p with
  | .ok body => some [4, body.length]
  | .error _ => none

/-- The lookup of `send_packet_unchecked`, and the first write. -/
def sendSection (pool : ConnectionPool) (n : PeerID) (p : Packet) (next : PoolStage) : Section :=
  match pool.connections[n]?, frameLengths codec p with
  | some peer, some left => .write peer.writeStream left
  | _, _ => .done pool next

/-- A call with the lock. -/
def PoolOp.enter (pool : ConnectionPool) : PoolOp → Section
  | .sendPacket n p => sendSection codec pool n p (.returned none)
  | .disconnect n quit => sendSection codec pool n (.quit quit) .removing
  | .insert n peer =>
    if pool.contains n then
      match frameLengths codec (.quit alreadyConnected) with
      | some left => .write peer.writeStream left
      | none => .done pool .panicked
    else .done (pool.insert n peer) (.returned none)
  | .setPing n pingNanos => .done (pool.setPing n pingNanos) (.returned none)
  | .read r => .done pool (.returned (some (r.answer pool)))

/-- `disconnect` with the lock for the second time. -/
def PoolOp.removed (pool : ConnectionPool) : PoolOp → ConnectionPool
  | .disconnect n _ => pool.remove n
  | _ => pool

/-- A call that has written everything. -/
def PoolOp.written : PoolOp → PoolStage
  | .disconnect _ _ => .removing
  | _ => .returned none

/-- A write that fails: `insert` goes on with its next write, and the others panic. -/
def PoolOp.failed (stream : StreamId) (rest : List ℕ) : PoolOp → PoolStage
  | .insert _ _ => .writing stream rest
  | _ => .panicked

namespace StallState

def setCall (s : StallState) (c : ℕ) (call : PoolCall) : StallState :=
  { s with calls := Function.update s.calls c (some call) }

def init (ourPeerId : PeerID) : StallState where
  pool := ConnectionPool.new ourPeerId
  lock := none
  calls _ := none
  buffered _ := 0

variable (capacity : StreamId → ℕ)

def step (s : StallState) : StallLabel → Option StallState
  | .call c op =>
    match s.calls c with
    | none => some (s.setCall c ⟨op, op.start codec⟩)
    | some _ => none
  | .lock c =>
    match s.lock, s.calls c with
    | none, some ⟨op, .waiting⟩ =>
      match op.enter codec s.pool with
      | .done pool stage => some { s.setCall c ⟨op, stage⟩ with pool }
      | .write stream left => some { s.setCall c ⟨op, .writing stream left⟩ with lock := some c }
    | none, some ⟨op, .removing⟩ =>
      some { s.setCall c ⟨op, .returned none⟩ with pool := op.removed s.pool }
    | _, _ => none
  | .write c k =>
    match s.calls c with
    | some ⟨op, .writing stream (k' :: rest)⟩ =>
      if 0 < k ∧ k ≤ k' ∧ s.buffered stream + k ≤ capacity stream then
        some { s.setCall c ⟨op, .writing stream ((k' - k) :: rest)⟩ with
          buffered := Function.update s.buffered stream (s.buffered stream + k) }
      else none
    | _ => none
  | .next c =>
    match s.calls c with
    | some ⟨op, .writing stream (0 :: rest)⟩ => some (s.setCall c ⟨op, .writing stream rest⟩)
    | some ⟨op, .writing _ []⟩ => some { s.setCall c ⟨op, op.written⟩ with lock := none }
    | _ => none
  | .fail c =>
    match s.calls c with
    | some ⟨op, .writing stream (_ :: rest)⟩ =>
      match op.failed stream rest with
      | .writing stream rest => some (s.setCall c ⟨op, .writing stream rest⟩)
      | stage => some { s.setCall c ⟨op, stage⟩ with lock := none }
    | _ => none
  | .drop c =>
    match s.calls c with
    | some ⟨op, .waiting⟩ => some (s.setCall c ⟨op, .dropped⟩)
    | some ⟨op, .removing⟩ => some (s.setCall c ⟨op, .dropped⟩)
    | some ⟨op, .writing _ _⟩ => some { s.setCall c ⟨op, .dropped⟩ with lock := none }
    | _ => none
  | .read stream k =>
    if k ≤ s.buffered stream then
      some { s with buffered := Function.update s.buffered stream (s.buffered stream - k) }
    else none

end StallState

end Step

/-! ### What one step can be -/

/-- A call that is in the middle of its writes has the lock. -/
def PoolStage.isWriting : PoolStage → Bool
  | .writing _ _ => true
  | _ => false

theorem isWriting_sendStart (codec : Codec Bytes) (p : Packet) {next : PoolStage}
    (hnext : next.isWriting = false) : (sendStart codec p next).isWriting = false := by
  rw [sendStart]
  split
  · rfl
  · exact hnext

theorem PoolOp.isWriting_start (codec : Codec Bytes) (op : PoolOp) :
    (op.start codec).isWriting = false := by
  cases op with
  | sendPacket n p =>
    cases p with
    | quit quit => rfl
    | _ => exact isWriting_sendStart codec _ rfl
  | disconnect n quit => exact isWriting_sendStart codec _ rfl
  | _ => rfl

theorem isWriting_of_sendSection {codec : Codec Bytes} {pool pool' : ConnectionPool} {n : PeerID}
    {p : Packet} {next stage : PoolStage} (hnext : next.isWriting = false)
    (h : sendSection codec pool n p next = .done pool' stage) : stage.isWriting = false := by
  rw [sendSection] at h
  split at h
  · cases h
  · cases h
    exact hnext

theorem PoolOp.isWriting_of_enter {codec : Codec Bytes} {op : PoolOp}
    {pool pool' : ConnectionPool} {stage : PoolStage}
    (h : op.enter codec pool = .done pool' stage) : stage.isWriting = false := by
  cases op with
  | sendPacket n p => exact isWriting_of_sendSection rfl h
  | disconnect n quit => exact isWriting_of_sendSection rfl h
  | insert n peer =>
    rw [PoolOp.enter] at h
    split at h
    · split at h
      · cases h
      · cases h
        rfl
    · cases h
      rfl
  | setPing n pingNanos => cases h; rfl
  | read r => cases h; rfl

theorem PoolOp.isWriting_written (op : PoolOp) : op.written.isWriting = false := by
  cases op <;> rfl

namespace StallState

variable {codec : Codec Bytes} {capacity : StreamId → ℕ} {s s' : StallState}

inductive Steps (codec : Codec Bytes) (capacity : StreamId → ℕ) (s : StallState) :
    StallLabel → StallState → Prop
  | call {c op} : s.calls c = none →
      Steps codec capacity s (.call c op) (s.setCall c ⟨op, op.start codec⟩)
  | enters {c op pool stage} : s.lock = none → s.calls c = some ⟨op, .waiting⟩ →
      op.enter codec s.pool = .done pool stage →
      Steps codec capacity s (.lock c) { s.setCall c ⟨op, stage⟩ with pool }
  | begins {c op stream left} : s.lock = none → s.calls c = some ⟨op, .waiting⟩ →
      op.enter codec s.pool = .write stream left → Steps codec capacity s (.lock c)
        { s.setCall c ⟨op, .writing stream left⟩ with lock := some c }
  | removes {c op} : s.lock = none → s.calls c = some ⟨op, .removing⟩ →
      Steps codec capacity s (.lock c)
        { s.setCall c ⟨op, .returned none⟩ with pool := op.removed s.pool }
  | writes {c op stream k k' rest} : s.calls c = some ⟨op, .writing stream (k' :: rest)⟩ →
      0 < k → k ≤ k' → s.buffered stream + k ≤ capacity stream →
      Steps codec capacity s (.write c k)
        { s.setCall c ⟨op, .writing stream ((k' - k) :: rest)⟩ with
          buffered := Function.update s.buffered stream (s.buffered stream + k) }
  | next {c op stream rest} : s.calls c = some ⟨op, .writing stream (0 :: rest)⟩ →
      Steps codec capacity s (.next c) (s.setCall c ⟨op, .writing stream rest⟩)
  | written {c op stream} : s.calls c = some ⟨op, .writing stream []⟩ →
      Steps codec capacity s (.next c) { s.setCall c ⟨op, op.written⟩ with lock := none }
  | fails {c op stream k rest} : s.calls c = some ⟨op, .writing stream (k :: rest)⟩ →
      op.failed stream rest = .panicked →
      Steps codec capacity s (.fail c) { s.setCall c ⟨op, .panicked⟩ with lock := none }
  | skips {c op stream k rest} : s.calls c = some ⟨op, .writing stream (k :: rest)⟩ →
      op.failed stream rest = .writing stream rest →
      Steps codec capacity s (.fail c) (s.setCall c ⟨op, .writing stream rest⟩)
  | drops {c op stage} : s.calls c = some ⟨op, stage⟩ → stage.isWriting = false →
      Steps codec capacity s (.drop c) (s.setCall c ⟨op, .dropped⟩)
  | dropsWriting {c op stream left} : s.calls c = some ⟨op, .writing stream left⟩ →
      Steps codec capacity s (.drop c) { s.setCall c ⟨op, .dropped⟩ with lock := none }
  | reads {stream k} : Steps codec capacity s (.read stream k)
      { s with buffered := Function.update s.buffered stream (s.buffered stream - k) }

theorem step_cases {l : StallLabel} (h : s.step codec capacity l = some s') :
    Steps codec capacity s l s' := by
  cases l with
  | call c op =>
    rw [step] at h
    split at h
    · rename_i hnone
      cases h
      exact .call hnone
    · cases h
  | lock c =>
    rw [step] at h
    split at h
    · rename_i hlock hcall
      split at h
      · rename_i henter
        cases h
        exact .enters hlock hcall henter
      · rename_i henter
        cases h
        exact .begins hlock hcall henter
    · rename_i hlock hcall
      cases h
      exact .removes hlock hcall
    · cases h
  | write c k =>
    rw [step] at h
    split at h
    · rename_i hcall
      split at h
      · rename_i hk
        cases h
        exact .writes hcall hk.1 hk.2.1 hk.2.2
      · cases h
    · cases h
  | next c =>
    rw [step] at h
    split at h
    · rename_i hcall
      cases h
      exact .next hcall
    · rename_i hcall
      cases h
      exact .written hcall
    · cases h
  | fail c =>
    rw [step] at h
    split at h
    · rename_i op stream k rest hcall
      cases op with
      | insert n peer =>
        cases h
        exact .skips hcall rfl
      | _ =>
        cases h
        exact .fails hcall rfl
    · cases h
  | drop c =>
    rw [step] at h
    split at h
    · rename_i hcall
      cases h
      exact .drops hcall rfl
    · rename_i hcall
      cases h
      exact .drops hcall rfl
    · rename_i hcall
      cases h
      exact .dropsWriting hcall
    · cases h
  | read stream k =>
    rw [step] at h
    split at h
    · cases h
      exact .reads
    · cases h

/-! ### The call that writes has the lock -/

def LockHeld (s : StallState) : Prop :=
  ∀ c call, s.calls c = some call → call.stage.isWriting = true → s.lock = some c

theorem LockHeld.setCall (inv : s.LockHeld) (c : ℕ) {call : PoolCall}
    (hcall : call.stage.isWriting = true → s.lock = some c) : (s.setCall c call).LockHeld := by
  intro c' call' hcall' hwriting
  rcases update_eq_cases hcall' with ⟨rfl, heq⟩ | ⟨-, hcall'⟩
  · cases heq
    exact hcall hwriting
  · exact inv c' call' hcall' hwriting

theorem LockHeld.release (inv : s.LockHeld) {c : ℕ} {call : PoolCall}
    (hcall : s.calls c = some call) (hwriting : call.stage.isWriting = true) {call' : PoolCall}
    (hcall' : call'.stage.isWriting = false) :
    LockHeld { s.setCall c call' with lock := none } := by
  intro c' call'' h hwriting'
  rcases update_eq_cases h with ⟨-, heq⟩ | ⟨hne, h⟩
  · cases heq
    rw [hcall'] at hwriting'
    cases hwriting'
  · have hlock := (inv c call hcall hwriting).symm.trans (inv c' call'' h hwriting')
    exact absurd (Option.some.inj hlock).symm hne

theorem LockHeld.step (inv : s.LockHeld) {l : StallLabel}
    (h : s.step codec capacity l = some s') : s'.LockHeld := by
  cases step_cases h with
  | @call c op _ =>
    refine inv.setCall c fun hwriting => ?_
    rw [PoolOp.isWriting_start] at hwriting
    cases hwriting
  | @enters c op pool stage _ _ henter =>
    refine inv.setCall c fun hwriting => ?_
    rw [PoolOp.isWriting_of_enter henter] at hwriting
    cases hwriting
  | @begins c op stream left hlock _ _ =>
    intro c' call' hcall' hwriting
    rcases update_eq_cases hcall' with ⟨rfl, -⟩ | ⟨-, hcall'⟩
    · rfl
    · cases hlock.symm.trans (inv c' call' hcall' hwriting)
  | removes _ _ => exact inv.setCall _ (by rintro ⟨⟩)
  | writes hcall _ _ _ => exact inv.setCall _ fun _ => inv _ _ hcall rfl
  | next hcall => exact inv.setCall _ fun _ => inv _ _ hcall rfl
  | @written c op stream hcall => exact inv.release hcall rfl op.isWriting_written
  | fails hcall _ => exact inv.release hcall rfl rfl
  | skips hcall _ => exact inv.setCall _ fun _ => inv _ _ hcall rfl
  | drops _ _ => exact inv.setCall _ (by rintro ⟨⟩)
  | dropsWriting hcall => exact inv.release hcall rfl rfl
  | reads => exact inv

theorem LockHeld.init (ourPeerId : PeerID) : (StallState.init ourPeerId).LockHeld := by
  intro c call hcall
  cases hcall

/-! ### A call that waits for a peer -/

/-- A call waits for the peer of a stream, whose buffers are full. -/
def Stalled (capacity : StreamId → ℕ) (s : StallState) (t : ℕ) (stream : StreamId) : Prop :=
  ∃ op k rest, s.calls t = some ⟨op, .writing stream (k :: rest)⟩ ∧ 0 < k ∧
    capacity stream ≤ s.buffered stream

/-- The steps that let a call on that stream go on or end it: the peer reads, the write fails, or
its future is dropped. -/
def Frees (t : ℕ) (stream : StreamId) : StallLabel → Prop
  | .read stream' _ => stream' = stream
  | .fail c => c = t
  | .drop c => c = t
  | _ => False

/-- What has become of the calls of the pool while the call `t` is at one place: they are where
they were, or were dropped, or are new and have not got past their wait for the lock. -/
structure Held (codec : Codec Bytes) (t : ℕ) (stream : StreamId) (s s' : StallState) : Prop where
  pool : s'.pool = s.pool
  call : s'.calls t = s.calls t
  buffered : s'.buffered stream = s.buffered stream
  others : ∀ c op stage, c ≠ t → s'.calls c = some ⟨op, stage⟩ → stage = .dropped ∨
    s.calls c = some ⟨op, stage⟩ ∨ (s.calls c = none ∧ stage = op.start codec)
  kept : ∀ c, s'.calls c = none → s.calls c = none

theorem Held.refl (codec : Codec Bytes) (t : ℕ) (stream : StreamId) (s : StallState) :
    Held codec t stream s s :=
  ⟨rfl, rfl, rfl, fun _ _ _ _ hcall => Or.inr (Or.inl hcall), fun _ hnone => hnone⟩

theorem Held.trans {t : ℕ} {stream : StreamId} {s₁ s₂ s₃ : StallState}
    (h : Held codec t stream s₁ s₂) (h' : Held codec t stream s₂ s₃) :
    Held codec t stream s₁ s₃ := by
  refine ⟨h'.pool.trans h.pool, h'.call.trans h.call, h'.buffered.trans h.buffered,
    fun c op stage hc hcall => ?_, fun c hnone => h.kept c (h'.kept c hnone)⟩
  rcases h'.others c op stage hc hcall with hdropped | hold | ⟨hnone, hstart⟩
  · exact Or.inl hdropped
  · exact h.others c op stage hc hold
  · exact Or.inr (Or.inr ⟨h.kept c hnone, hstart⟩)

theorem Held.setCall {t : ℕ} {stream : StreamId} {c : ℕ} {call : PoolCall} (hc : c ≠ t)
    (hcall : call.stage = .dropped ∨
      (s.calls c = none ∧ call.stage = call.op.start codec)) :
    Held codec t stream s (s.setCall c call) := by
  refine ⟨rfl, Function.update_of_ne (Ne.symm hc) _ _, rfl, fun c' op stage _ hcall' => ?_,
    fun c' hnone => ?_⟩
  · rcases update_eq_cases hcall' with ⟨rfl, heq⟩ | ⟨-, hcall'⟩
    · cases heq
      exact hcall.imp_right Or.inr
    · exact Or.inr (Or.inl hcall')
  · by_cases heq : c' = c
    · subst heq
      cases (Function.update_self c' _ s.calls).symm.trans hnone
    · exact (Function.update_of_ne heq _ _).symm.trans hnone

/-- **A step that does not free a stalled call** leaves it and the pool as they are: every other
call is kept out by the lock. -/
theorem Stalled.step (inv : s.LockHeld) {t : ℕ} {stream : StreamId}
    (hstalled : s.Stalled capacity t stream) {l : StallLabel} (hl : ¬ Frees t stream l)
    (h : s.step codec capacity l = some s') : Held codec t stream s s' := by
  obtain ⟨op, k, rest, ht, hk, hfull⟩ := hstalled
  have hlock := inv t _ ht rfl
  -- nobody else is writing
  have hother : ∀ c call, s.calls c = some call → call.stage.isWriting = true → c = t :=
    fun c call hcall hwriting => Option.some.inj ((inv c call hcall hwriting).symm.trans hlock)
  cases step_cases h with
  | @call c op' hnone =>
    refine .setCall ?_ (Or.inr ⟨hnone, rfl⟩)
    rintro rfl
    cases ht.symm.trans hnone
  | enters hfree _ _ => cases hlock.symm.trans hfree
  | begins hfree _ _ => cases hlock.symm.trans hfree
  | removes hfree _ => cases hlock.symm.trans hfree
  | writes hcall hpos hle hspace =>
    obtain rfl := hother _ _ hcall rfl
    cases ht.symm.trans hcall
    omega
  | next hcall =>
    obtain rfl := hother _ _ hcall rfl
    cases ht.symm.trans hcall
    cases hk
  | written hcall =>
    obtain rfl := hother _ _ hcall rfl
    cases ht.symm.trans hcall
  | fails hcall _ => exact absurd (hother _ _ hcall rfl) hl
  | skips hcall _ => exact absurd (hother _ _ hcall rfl) hl
  | drops hcall _ => exact .setCall hl (Or.inl rfl)
  | dropsWriting hcall => exact absurd (hother _ _ hcall rfl) hl
  | reads =>
    exact ⟨rfl, rfl, Function.update_of_ne (Ne.symm hl) _ _,
      fun _ _ _ _ hcall => Or.inr (Or.inl hcall), fun _ hnone => hnone⟩

theorem Held.stalled {t : ℕ} {stream : StreamId} (h : Held codec t stream s s')
    (hstalled : s.Stalled capacity t stream) : s'.Stalled capacity t stream := by
  obtain ⟨op, k, rest, ht, hk, hfull⟩ := hstalled
  exact ⟨op, k, rest, h.call.trans ht, hk, h.buffered ▸ hfull⟩

/-- **No call gets past its wait for the lock** in any run that does not free the stalled
call. -/
theorem Stalled.exec (inv : s.LockHeld) {t : ℕ} {stream : StreamId}
    (hstalled : s.Stalled capacity t stream) {labels : List StallLabel}
    (hlabels : ∀ l ∈ labels, ¬ Frees t stream l)
    (h : exec (StallState.step codec capacity) s labels = some s') :
    Held codec t stream s s' := by
  induction labels generalizing s with
  | nil =>
    cases h
    exact .refl _ _ _ _
  | cons l labels ih =>
    obtain ⟨s₁, hstep, hrest⟩ := exec_cons_eq_some.mp h
    have hfirst := hstalled.step inv (hlabels l List.mem_cons_self) hstep
    exact hfirst.trans (ih (inv.step hstep) (hfirst.stalled hstalled)
      (fun l' hl' => hlabels l' (List.mem_cons_of_mem _ hl')) hrest)

/-! ### Once the lock is free -/

/-- The steps of one call, and the reads of the peer it writes to. -/
def IsOf (c : ℕ) (stream : StreamId) : StallLabel → Prop
  | .lock c' => c' = c
  | .write c' _ => c' = c
  | .next c' => c' = c
  | .read stream' _ => stream' = stream
  | _ => False

/-- One more byte is written, once the peer has emptied the buffers. -/
theorem exec_read_write (hcapacity : ∀ stream, 0 < capacity stream) {c : ℕ} {op : PoolOp}
    {stream : StreamId} {k : ℕ} {left : List ℕ}
    (hcall : s.calls c = some ⟨op, .writing stream ((k + 1) :: left)⟩) :
    ∃ s', exec (step codec capacity) s [.read stream (s.buffered stream), .write c 1] = some s' ∧
      s'.pool = s.pool ∧ s'.calls c = some ⟨op, .writing stream (k :: left)⟩ := by
  have hempty : s.buffered stream - s.buffered stream = 0 := Nat.sub_self _
  have hread : s.step codec capacity (.read stream (s.buffered stream)) =
      some { s with buffered := Function.update s.buffered stream 0 } := by
    simp only [step, le_refl, if_true, hempty]
  have hwrite : step codec capacity { s with buffered := Function.update s.buffered stream 0 }
      (.write c 1) = some { s.setCall c ⟨op, .writing stream (k :: left)⟩ with
        buffered := Function.update (Function.update s.buffered stream 0) stream (0 + 1) } := by
    have hspace : 0 < 1 ∧ 1 ≤ k + 1 ∧ 0 + 1 ≤ capacity stream :=
      ⟨Nat.one_pos, Nat.succ_le_succ (Nat.zero_le k), hcapacity stream⟩
    simp only [step, hcall, Function.update_self, if_pos hspace, Nat.add_sub_cancel]
    rfl
  exact ⟨_, exec_cons_eq_some.mpr ⟨_, hread, (exec_singleton _ _).trans hwrite⟩, rfl,
    Function.update_self _ _ _⟩

/-- **A write comes to its end** if the peer of its stream reads. -/
theorem exists_written (codec : Codec Bytes) (hcapacity : ∀ stream, 0 < capacity stream)
    {c : ℕ} {op : PoolOp} {stream : StreamId} {left : List ℕ}
    (hcall : s.calls c = some ⟨op, .writing stream left⟩) :
    ∃ labels s', exec (step codec capacity) s labels = some s' ∧ (∀ l ∈ labels, IsOf c stream l) ∧
      s'.lock = none ∧ s'.pool = s.pool ∧ s'.calls c = some ⟨op, op.written⟩ := by
  induction left generalizing s with
  | nil =>
    have hstep : s.step codec capacity (.next c) =
        some { s.setCall c ⟨op, op.written⟩ with lock := none } := by
      simp only [step, hcall]
    refine ⟨[.next c], _, (exec_singleton _ _).trans hstep, fun l hl => ?_, rfl, rfl,
      Function.update_self _ _ _⟩
    rw [List.mem_singleton.mp hl]
    rfl
  | cons k left ih =>
    induction k generalizing s with
    | zero =>
      have hstep : s.step codec capacity (.next c) =
          some (s.setCall c ⟨op, .writing stream left⟩) := by
        simp only [step, hcall]
      have hnext : (s.setCall c ⟨op, .writing stream left⟩).calls c =
          some ⟨op, .writing stream left⟩ := Function.update_self _ _ _
      obtain ⟨labels, s', hrun, hlabels, hrest⟩ := ih hnext
      refine ⟨.next c :: labels, s', exec_cons_eq_some.mpr ⟨_, hstep, hrun⟩, ?_, hrest⟩
      exact List.forall_mem_cons.mpr ⟨rfl, hlabels⟩
    | succ k ihk =>
      obtain ⟨s₁, hfirst, hpool₁, hcall₁⟩ := exec_read_write hcapacity hcall
      obtain ⟨labels, s', hrun, hlabels, hlock, hpool, hcall'⟩ := ihk hcall₁
      refine ⟨_ ++ labels, s', (exec_append_of hfirst).trans hrun, fun l hl => ?_, hlock,
        hpool.trans hpool₁, hcall'⟩
      rcases List.mem_append.mp hl with hl | hl
      · rcases List.mem_pair.mp hl with rfl | rfl
        · rfl
        · rfl
      · exact hlabels l hl

theorem step_lock_done {c : ℕ} {op : PoolOp} {pool : ConnectionPool} {stage : PoolStage}
    (hlock : s.lock = none) (hcall : s.calls c = some ⟨op, .waiting⟩)
    (henter : op.enter codec s.pool = .done pool stage) :
    s.step codec capacity (.lock c) = some { s.setCall c ⟨op, stage⟩ with pool } := by
  simp only [step, hlock, hcall, henter]

theorem step_lock_write {c : ℕ} {op : PoolOp} {stream : StreamId} {left : List ℕ}
    (hlock : s.lock = none) (hcall : s.calls c = some ⟨op, .waiting⟩)
    (henter : op.enter codec s.pool = .write stream left) : s.step codec capacity (.lock c) =
      some { s.setCall c ⟨op, .writing stream left⟩ with lock := some c } := by
  simp only [step, hlock, hcall, henter]

theorem step_removing {c : ℕ} {op : PoolOp} (hlock : s.lock = none)
    (hcall : s.calls c = some ⟨op, .removing⟩) : s.step codec capacity (.lock c) =
      some { s.setCall c ⟨op, .returned none⟩ with pool := op.removed s.pool } := by
  simp only [step, hlock, hcall]

/-- A call that is past its first section returns. -/
theorem exists_returned_of_written {c : ℕ} {op : PoolOp} {stage : PoolStage}
    (hcall : s.calls c = some ⟨op, stage⟩) (hlock : s.lock = none)
    (hstage : stage = .removing ∨ ∃ answer, stage = .returned answer) :
    ∃ labels s' answer, exec (step codec capacity) s labels = some s' ∧
      (∀ l ∈ labels, l = .lock c) ∧ s'.calls c = some ⟨op, .returned answer⟩ := by
  rcases hstage with rfl | ⟨answer, rfl⟩
  · exact ⟨[.lock c], _, none, (exec_singleton _ _).trans (step_removing hlock hcall),
      fun l hl => List.mem_singleton.mp hl, Function.update_self _ _ _⟩
  · exact ⟨[], s, answer, rfl, List.forall_mem_nil _, hcall⟩

/-- A call waits for the lock. -/
def Waits (s : StallState) (c : ℕ) (op : PoolOp) : Prop :=
  s.calls c = some ⟨op, .waiting⟩ ∨ s.calls c = some ⟨op, .removing⟩

/-- A call has something to write on a stream when it gets the lock. -/
def WritesOn (codec : Codec Bytes) (s : StallState) (c : ℕ) (stream : StreamId) : Prop :=
  ∃ op left, s.calls c = some ⟨op, .waiting⟩ ∧ op.enter codec s.pool = .write stream left

theorem stage_of_enter {op : PoolOp} {pool pool' : ConnectionPool} {stage : PoolStage}
    (hquit : frameLengths codec (.quit alreadyConnected) ≠ none)
    (h : op.enter codec pool = .done pool' stage) :
    stage = .removing ∨ ∃ answer, stage = .returned answer := by
  have hsend : ∀ {n : PeerID} {p : Packet} {next : PoolStage},
      sendSection codec pool n p next = .done pool' stage → stage = next := by
    intro n p next hsend
    rw [sendSection] at hsend
    split at hsend
    · cases hsend
    · cases hsend
      rfl
  cases op with
  | sendPacket n p => exact Or.inr ⟨none, hsend h⟩
  | disconnect n quit => exact Or.inl (hsend h)
  | insert n peer =>
    rw [PoolOp.enter] at h
    split at h
    · split at h
      · cases h
      · rename_i hnone
        exact absurd hnone hquit
    · cases h
      exact Or.inr ⟨none, rfl⟩
  | setPing n pingNanos => cases h; exact Or.inr ⟨none, rfl⟩
  | read r => cases h; exact Or.inr ⟨_, rfl⟩

theorem stage_of_written (op : PoolOp) :
    op.written = .removing ∨ ∃ answer, op.written = .returned answer := by
  cases op with
  | disconnect n quit => exact Or.inl rfl
  | _ => exact Or.inr ⟨none, rfl⟩

/-- **A call that waits for a free lock can return**, and the only peer that has to read for it
is the one that it writes to. -/
theorem exists_returned (hcapacity : ∀ stream, 0 < capacity stream)
    (hquit : frameLengths codec (.quit alreadyConnected) ≠ none) (hlock : s.lock = none) {c : ℕ}
    {op : PoolOp} (hwaits : s.Waits c op) {stream : StreamId}
    (hwrites : ¬ s.WritesOn codec c stream) :
    ∃ labels s' answer, exec (step codec capacity) s labels = some s' ∧
      (∀ l ∈ labels, ∀ k, l ≠ .read stream k) ∧ s'.calls c = some ⟨op, .returned answer⟩ := by
  rcases hwaits with hcall | hcall
  · cases henter : op.enter codec s.pool with
    | done pool stage =>
      have hnext : ({ s.setCall c ⟨op, stage⟩ with pool } : StallState).calls c =
          some ⟨op, stage⟩ := Function.update_self _ _ _
      obtain ⟨labels, s', answer, hrun, hlabels, hreturned⟩ :=
        exists_returned_of_written hnext hlock (stage_of_enter hquit henter)
      refine ⟨.lock c :: labels, s', answer, exec_cons_eq_some.mpr
        ⟨_, step_lock_done hlock hcall henter, hrun⟩, fun l hl k => ?_, hreturned⟩
      rcases List.mem_cons.mp hl with rfl | hl
      · rintro ⟨⟩
      · rw [hlabels l hl]
        rintro ⟨⟩
    | write stream' left =>
      have hne : stream' ≠ stream := by
        rintro rfl
        exact hwrites ⟨op, left, hcall, henter⟩
      have hnext : ({ s.setCall c ⟨op, .writing stream' left⟩ with lock := some c } :
          StallState).calls c = some ⟨op, .writing stream' left⟩ := Function.update_self _ _ _
      obtain ⟨labels₁, s₁, hrun₁, hlabels₁, hlock₁, -, hcall₁⟩ :=
        exists_written codec hcapacity hnext
      obtain ⟨labels₂, s₂, answer, hrun₂, hlabels₂, hreturned⟩ :=
        exists_returned_of_written hcall₁ hlock₁ (stage_of_written op)
      refine ⟨.lock c :: (labels₁ ++ labels₂), s₂, answer,
        exec_cons_eq_some.mpr ⟨_, step_lock_write hlock hcall henter,
          (exec_append_of hrun₁).trans hrun₂⟩, fun l hl k => ?_, hreturned⟩
      rcases List.mem_cons.mp hl with rfl | hl
      · rintro ⟨⟩
      · rcases List.mem_append.mp hl with hl | hl
        · rintro rfl
          exact hne (hlabels₁ _ hl).symm
        · rw [hlabels₂ l hl]
          rintro ⟨⟩
  · obtain ⟨labels, s', answer, hrun, hlabels, hreturned⟩ :=
      exists_returned_of_written hcall hlock (Or.inl rfl)
    refine ⟨labels, s', answer, hrun, fun l hl k => ?_, hreturned⟩
    rw [hlabels l hl]
    rintro ⟨⟩

/-! ### The pool while a peer does not read -/

theorem lockHeld_of_exec {ourPeerId : PeerID} {labels : List StallLabel}
    (h : exec (step codec capacity) (init ourPeerId) labels = some s) : s.LockHeld :=
  invariant_of_exec (fun _ _ _ inv hstep => LockHeld.step inv hstep) h (LockHeld.init ourPeerId)

/-- **A `send_packet` that waits for its peer holds the pool.**  Until the peer reads, the write
fails or the future is dropped, no other call gets past its wait for the lock and the entries do
not change.  If the peer reads then the call can return.  If the write fails or the future is
dropped, then every call that waits for the lock can return without a read of that peer, unless
it is to write on the same stream. -/
theorem stalled_send_holds_pool (codec : Codec Bytes) {capacity : StreamId → ℕ}
    (hcapacity : ∀ stream, 0 < capacity stream)
    (hquit : frameLengths codec (.quit alreadyConnected) ≠ none) {ourPeerId : PeerID}
    {labels : List StallLabel}
    (h : exec (step codec capacity) (init ourPeerId) labels = some s) {t k : ℕ} {n : PeerID}
    {p : Packet} {stream : StreamId} {rest : List ℕ}
    (hcall : s.calls t = some ⟨.sendPacket n p, .writing stream (k :: rest)⟩) (hk : 0 < k)
    (hfull : capacity stream ≤ s.buffered stream) :
    s.lock = some t ∧
    (∀ labels' s', (∀ l ∈ labels', ¬ Frees t stream l) →
      exec (step codec capacity) s labels' = some s' → Held codec t stream s s') ∧
    (∃ labels' s' answer, (∀ l ∈ labels', IsOf t stream l) ∧
      exec (step codec capacity) s labels' = some s' ∧
      s'.calls t = some ⟨.sendPacket n p, .returned answer⟩) ∧
    ∀ l s₁, l = .fail t ∨ l = .drop t → s.step codec capacity l = some s₁ →
      ∀ c op, s₁.Waits c op → ¬ s₁.WritesOn codec c stream → ∃ labels' s' answer,
        (∀ l ∈ labels', ∀ k, l ≠ .read stream k) ∧
        exec (step codec capacity) s₁ labels' = some s' ∧
        s'.calls c = some ⟨op, .returned answer⟩ := by
  have inv := lockHeld_of_exec h
  refine ⟨inv t _ hcall rfl, fun labels' s' hlabels hrun => ?_, ?_,
    fun l s₁ hl hstep c op hwaits hwrites => ?_⟩
  · exact Stalled.exec inv ⟨_, k, rest, hcall, hk, hfull⟩ hlabels hrun
  · obtain ⟨labels', s', hrun, hlabels, -, -, hreturned⟩ :=
      exists_written codec hcapacity hcall
    exact ⟨labels', s', none, hlabels, hrun, hreturned⟩
  · have hlock : s₁.lock = none := by
      rcases hl with rfl | rfl
      · simp only [step, hcall, PoolOp.failed, Option.some.injEq] at hstep
        rw [← hstep]
      · simp only [step, hcall, Option.some.injEq] at hstep
        rw [← hstep]
    obtain ⟨labels', s', answer, hrun, hlabels, hreturned⟩ :=
      exists_returned hcapacity hquit hlock hwaits hwrites
    exact ⟨labels', s', answer, hlabels, hrun, hreturned⟩

/-! ### A frozen node -/

/-- A peer reads nothing, and the length of a Ping to it is all that its buffers take.  Then
somebody asks the pool for another peer. -/
def frozenRun (n m : PeerID) (peer : PeerInfo) (p : Packet) : List StallLabel :=
  [.call 0 (.insert n peer), .lock 0, .call 1 (.sendPacket n p), .lock 1, .write 1 4, .next 1,
    .call 2 (.read (.contains m))]

theorem exec_frozenRun (ourPeerId n m : PeerID) (pingId : UInt32) {body : Bytes}
    (hbody : codec.rawBytes (.ping ⟨pingId⟩) = .ok body) : ∃ s,
      exec (step codec fun _ => 4) (init ourPeerId)
        (frozenRun n m ⟨"local-1", 0, none, 0⟩ (.ping ⟨pingId⟩)) = some s ∧
      s.calls 1 = some ⟨.sendPacket n (.ping ⟨pingId⟩), .writing 0 [body.length]⟩ ∧
      s.buffered 0 = 4 ∧ s.Waits 2 (.read (.contains m)) := by
  let pool := (ConnectionPool.new ourPeerId).insert n ⟨"local-1", 0, none, 0⟩
  have hnew : (init ourPeerId).pool.contains n = false := by
    simp [init, ConnectionPool.new, ConnectionPool.contains]
  have hget : pool.connections[n]? = some ⟨"local-1", 0, none, 0⟩ :=
    (ConnectionPool.getElem?_insert _ _ _ _).trans (if_pos rfl)
  have hinsert : (PoolOp.insert n ⟨"local-1", 0, none, 0⟩).enter codec (init ourPeerId).pool =
      .done pool (.returned none) := by
    rw [PoolOp.enter, hnew]
    rfl
  have hstart : (PoolOp.sendPacket n (.ping ⟨pingId⟩)).start codec = .waiting := by
    simp only [PoolOp.start, sendPacketStart, sendStart, hbody]
  have hsend : (PoolOp.sendPacket n (.ping ⟨pingId⟩)).enter codec pool =
      .write 0 [4, body.length] := by
    simp only [PoolOp.enter, sendSection, hget, frameLengths, hbody]
  refine ⟨_, exec_cons_eq_some.mpr ⟨_, rfl, exec_cons_eq_some.mpr
    ⟨_, step_lock_done rfl rfl hinsert, exec_cons_eq_some.mpr ⟨_, rfl, exec_cons_eq_some.mpr
    ⟨_, step_lock_write rfl (congrArg (fun stage => some (PoolCall.mk _ stage)) hstart) hsend,
    exec_cons_eq_some.mpr ⟨_, rfl, exec_cons_eq_some.mpr ⟨_, rfl,
    (exec_singleton _ _).trans rfl⟩⟩⟩⟩⟩⟩, rfl, rfl, Or.inl rfl⟩

/-- **A peer that reads nothing freezes the pool.**  The Ping waits for it, and `contains` does
not return in any run in which it does not read, the write does not fail and the Ping is not
dropped. -/
theorem stalled_peer_freezes_pool : ∃ s,
    exec (step (listCodec [.ping ⟨0⟩]) fun _ => 4) (init ⟨realSha256 []⟩)
      (frozenRun ⟨realSha256 [1]⟩ ⟨realSha256 [2]⟩ ⟨"local-1", 0, none, 0⟩ (.ping ⟨0⟩)) = some s ∧
    s.Stalled (fun _ => 4) 1 0 ∧ s.Waits 2 (.read (.contains ⟨realSha256 [2]⟩)) ∧
    ∀ labels s', (∀ l ∈ labels, ¬ Frees 1 0 l) →
      exec (step (listCodec [.ping ⟨0⟩]) fun _ => 4) s labels = some s' →
      ∀ op answer, s'.calls 2 ≠ some ⟨op, .returned answer⟩ := by
  have hbody : (listCodec [.ping ⟨0⟩]).rawBytes (.ping ⟨0⟩) = .ok [0] := rfl
  obtain ⟨s, hrun, hcall, hfull, hwaits⟩ :=
    exec_frozenRun ⟨realSha256 []⟩ ⟨realSha256 [1]⟩ ⟨realSha256 [2]⟩ 0 hbody
  have hstalled : s.Stalled (fun _ => 4) 1 0 := ⟨_, _, _, hcall, Nat.one_pos, hfull.ge⟩
  refine ⟨s, hrun, hstalled, hwaits, fun labels s' hlabels hrest op answer hreturned => ?_⟩
  have hheld := Stalled.exec (lockHeld_of_exec hrun) hstalled hlabels hrest
  rcases hheld.others 2 op _ (by decide) hreturned with h | h | ⟨hnone, -⟩
  · cases h
  · rcases hwaits with hwaits | hwaits
    · cases h.symm.trans hwaits
    · cases h.symm.trans hwaits
  · rcases hwaits with hwaits | hwaits
    · cases hnone.symm.trans hwaits
    · cases hnone.symm.trans hwaits

/-- The lock is with the Ping in that run. -/
theorem stalled_send_holds_pool_frozen : ∃ s,
    exec (step (listCodec [.ping ⟨0⟩, .quit alreadyConnected]) fun _ => 4) (init ⟨realSha256 []⟩)
      (frozenRun ⟨realSha256 [1]⟩ ⟨realSha256 [2]⟩ ⟨"local-1", 0, none, 0⟩ (.ping ⟨0⟩)) = some s ∧
    s.lock = some 1 := by
  have hbody : (listCodec [.ping ⟨0⟩, .quit alreadyConnected]).rawBytes (.ping ⟨0⟩) = .ok [0] := rfl
  have hquit : frameLengths (listCodec [.ping ⟨0⟩, .quit alreadyConnected])
      (.quit alreadyConnected) ≠ none := by
    decide
  obtain ⟨s, hrun, hcall, hfull, -⟩ :=
    exec_frozenRun ⟨realSha256 []⟩ ⟨realSha256 [1]⟩ ⟨realSha256 [2]⟩ 0 hbody
  exact ⟨s, hrun, (stalled_send_holds_pool _ (fun _ => by decide) hquit hrun hcall Nat.one_pos
    hfull.ge).1⟩

end StallState

end Tewta
