import Tewta.Lib.Framing
import Tewta.Lib.Transition
import Tewta.Node.OnPacket

/-!
# A node at work

The state of a node, and one step for each section that its tasks run between
two suspensions: connections are inserted, calls of `disconnect` come from
anywhere, and every connection has a read task that reads frames, decodes them
and handles them one after the other.  Everything the rest of the world does is
a label: the bytes that arrive, the end of a stream, the writes that fail.

A section that writes does so under the lock of the pool, so it is one step; the
module on sending looks inside.
-/

namespace Tewta

open Framing

/-- The read task that `insert` spawns. -/
inductive ReadTask
  | notSpawned
  | reading (n : PeerID) (stream : StreamId) (got : Bytes)
  | handling (n : PeerID) (stream : StreamId) (handler : Handler)
  | panicked
  | cancelled
  deriving DecidableEq

/-- The read task once a section of `on_packet` is over: the next packet is read
after the last one. -/
def ReadTask.resume (n : PeerID) (stream : StreamId) : Handler → ReadTask
  | .finished => .reading n stream []
  | handler => .handling n stream handler

/-- A read task that has neither ended nor panicked. -/
def ReadTask.isAlive : ReadTask → Bool
  | .reading _ _ _ => true
  | .handling _ _ _ => true
  | _ => false

/-- A call of `disconnect` that is not a read task's. -/
inductive DisconnectCall
  | notCalled
  | running (n : PeerID) (quit : QuitPacket) (stage : Disconnecting)
  | returned
  | panicked
  | dropped
  deriving DecidableEq

/-- The call once a section is over. -/
def DisconnectCall.resume (n : PeerID) (quit : QuitPacket) : Option Disconnecting → DisconnectCall
  | some stage => .running n quit stage
  | none => .returned

/-- A connection that was removed, with what had been written on it by then. -/
structure Removed where
  peerId : PeerID
  stream : StreamId
  written : List Packet

/-- A node.  Streams and read tasks are numbered by `next`; `written` has the
packets the node has written on a stream once the handshake was over. -/
structure NodeState where
  pool : ConnectionPool
  dht : DhtStore
  tasks : TaskId → ReadTask
  aborted : TaskId → Bool
  disconnects : ℕ → DisconnectCall
  inbound : StreamId → Bytes
  closed : StreamId → Bool
  written : StreamId → List Packet
  fired : List (PeerID × Packet)
  announced : List PeerID
  removed : List Removed
  next : ℕ

/-- A node that knows nobody. -/
def NodeState.init (ourPeerId : PeerID) : NodeState where
  pool := ConnectionPool.new ourPeerId
  dht := DhtStore.empty
  tasks := fun _ => .notSpawned
  aborted := fun _ => false
  disconnects := fun _ => .notCalled
  inbound := fun _ => []
  closed := fun _ => false
  written := fun _ => []
  fired := []
  announced := []
  removed := []
  next := 0

inductive NodeLabel
  /-- a handshake is over, and the connection goes into the pool -/
  | insert (n : PeerID) (addr : String)
  /-- bytes arrive on a stream -/
  | arrive (stream : StreamId) (bytes : Bytes)
  /-- a stream ends -/
  | close (stream : StreamId)
  /-- `disconnect` is called -/
  | callDisconnect (d : ℕ) (n : PeerID) (quit : QuitPacket)
  /-- a call of `disconnect` runs its next section -/
  | disconnect (d : ℕ) (writes : Bool)
  /-- the future of a call of `disconnect` is dropped -/
  | dropDisconnect (d : ℕ)
  /-- a read task runs its next section -/
  | poll (t : TaskId) (writes : Bool) (shuffle : Shuffle)
  /-- a read task that was aborted is dropped -/
  | cancel (t : TaskId)
  /-- any other task sends a packet -/
  | send (n : PeerID) (p : Packet) (writes : Bool)
  /-- a value is stored -/
  | setDht (key : KeyID) (value : DhtValue)

/-- The Quit of an `insert` that comes too late. -/
def alreadyConnected : QuitPacket :=
  { reasonCode := "InsertError::AlreadyConnected", message := none, reportFault := false }

namespace NodeState

/-! ### Sections -/

/-- A packet is written on a stream. -/
def wrote (s : NodeState) (stream : StreamId) (p : Packet) : NodeState :=
  { s with written := Function.update s.written stream (s.written stream ++ [p]) }

/-- The peer is removed and its read task aborted. -/
def removePeer (s : NodeState) (n : PeerID) (peer : PeerInfo) : NodeState :=
  { s with
    pool := s.pool.remove n
    aborted := Function.update s.aborted peer.readStreamTask true
    removed := s.removed ++ [⟨n, peer.writeStream, s.written peer.writeStream⟩] }

def setTask (s : NodeState) (t : TaskId) (task : ReadTask) : NodeState :=
  { s with tasks := Function.update s.tasks t task }

def setDisconnect (s : NodeState) (d : ℕ) (call : DisconnectCall) : NodeState :=
  { s with disconnects := Function.update s.disconnects d call }

@[simp] theorem tasks_setTask_self (s : NodeState) (t : TaskId) (task : ReadTask) :
    (s.setTask t task).tasks t = task := Function.update_self _ _ _

theorem tasks_setTask_of_ne (s : NodeState) {t t' : TaskId} (h : t' ≠ t) (task : ReadTask) :
    (s.setTask t task).tasks t' = s.tasks t' := Function.update_of_ne h _ _

theorem mem_wrote {s : NodeState} {stream : StreamId} {p : Packet} (h : p ∈ s.written stream)
    (stream' : StreamId) (p' : Packet) : p ∈ (s.wrote stream' p').written stream := by
  simp only [wrote, Function.update_apply]
  split
  · rename_i heq
    exact List.mem_append_left _ (heq ▸ h)
  · exact h

theorem mem_wrote_self (s : NodeState) (stream : StreamId) (p : Packet) :
    p ∈ (s.wrote stream p).written stream := by
  simp only [wrote, Function.update_self]
  exact List.mem_append_right _ (List.mem_singleton_self p)

theorem getElem?_removePeer (s : NodeState) (m n : PeerID) (peer : PeerInfo) :
    (s.removePeer m peer).pool.connections[n]? =
      if m = n then none else s.pool.connections[n]? :=
  ConnectionPool.getElem?_remove s.pool m n

section Step

variable (codec : Codec Bytes)

/-- `ConnectionPool::send_packet_unchecked`; there is no state after the panic of
a failed write. -/
def sendPacketUnchecked (s : NodeState) (n : PeerID) (p : Packet) (writes : Bool) :
    Option NodeState :=
  match codec.rawBytes p with
  | .error _ => some s
  | .ok _ =>
    match s.pool.connections[n]? with
    | none => some s
    | some peer => if writes then some (s.wrote peer.writeStream p) else none

/-- `ConnectionPool::send_packet`. -/
def sendPacket (s : NodeState) (n : PeerID) (p : Packet) (writes : Bool) : Option NodeState :=
  match p with
  | .quit _ => none
  | _ => s.sendPacketUnchecked codec n p writes

/-- `ConnectionPool::disconnect`, a section at a time, with the section that
comes next. -/
def disconnectSection (s : NodeState) (n : PeerID) (quit : QuitPacket) (writes : Bool) :
    Disconnecting → Option (NodeState × Option Disconnecting)
  | .quitting =>
    match s.sendPacketUnchecked codec n (.quit quit) writes with
    | some s => some (s, some .removing)
    | none => none
  | .removing =>
    match s.pool.connections[n]? with
    | some peer => some (s.removePeer n peer, some .announcing)
    | none => some (s, none)
  | .announcing => some ({ s with announced := s.announced ++ [n] }, none)

/-- `Node::on_packet`, a section at a time. -/
def handlerSection (s : NodeState) (n : PeerID) (writes : Bool) (shuffle : Shuffle) :
    Handler → Option (NodeState × Handler)
  | .start p =>
    match onPacket s.pool s.dht shuffle p with
    | some (handler, dht) => some ({ s with dht := dht }, handler)
    | none => none
  | .listPeers p => some (s, .reply (notFoundResponse s.pool p) (.findDhtValue p))
  | .reply response p =>
    match s.sendPacket codec n response writes with
    | some s => some (s, .fire p)
    | none => none
  | .fire p => some ({ s with fired := s.fired ++ [(n, p)] }, .finished)
  | .disconnecting stage p =>
    match s.disconnectSection codec n quitReceived writes stage with
    | some (s, next) => some (s, .resume p next)
    | none => none
  | .finished => some (s, .finished)

/-- The read task of `insert`, a section at a time.  Reading takes a byte at a
time; reading past the end of the stream, a frame that is too large and whatever
panics in `on_packet` end the task. -/
def pollTask (s : NodeState) (t : TaskId) (writes : Bool) (shuffle : Shuffle) :
    Option NodeState :=
  match s.tasks t with
  | .reading n stream got =>
    match parse maxPacketSize got with
    | .incomplete =>
      match s.inbound stream with
      | b :: rest =>
        some ({ s with inbound := Function.update s.inbound stream rest }.setTask t
          (.reading n stream (got ++ [b])))
      | [] => if s.closed stream then some (s.setTask t .panicked) else none
    | .tooLarge => some (s.setTask t .panicked)
    | .complete body _ =>
      match codec.fromRawBytes body with
      | .ok p => some (s.setTask t (.handling n stream (.start p)))
      | .error _ => some (s.setTask t (.reading n stream []))
  | .handling n stream handler =>
    match s.handlerSection codec n writes shuffle handler with
    | some (s, handler) => some (s.setTask t (.resume n stream handler))
    | none => some (s.setTask t .panicked)
  | _ => none

/-- `ConnectionPool::insert`.  A refused connection never enters the pool; its
Quit is serialized under an `expect`, and errors in writing it are ignored. -/
def insertPeer (s : NodeState) (n : PeerID) (addr : String) : NodeState :=
  match s.pool.connections[n]? with
  | some _ =>
    match codec.rawBytes (.quit alreadyConnected) with
    | .ok _ => { s.wrote s.next (.quit alreadyConnected) with next := s.next + 1 }
    | .error _ => { s with next := s.next + 1 }
  | none =>
    { s.setTask s.next (.reading n s.next []) with
      pool := s.pool.insert n
        { addr, writeStream := s.next, pingNanos := none, readStreamTask := s.next }
      next := s.next + 1 }

/-- One step of a node. -/
def step (s : NodeState) : NodeLabel → Option NodeState
  | .insert n addr => some (s.insertPeer codec n addr)
  | .arrive stream bytes =>
    if s.closed stream then none
    else some { s with inbound := Function.update s.inbound stream (s.inbound stream ++ bytes) }
  | .close stream => some { s with closed := Function.update s.closed stream true }
  | .callDisconnect d n quit =>
    match s.disconnects d with
    | .notCalled => some (s.setDisconnect d (.running n quit .quitting))
    | _ => none
  | .disconnect d writes =>
    match s.disconnects d with
    | .running n quit stage =>
      match s.disconnectSection codec n quit writes stage with
      | some (s, next) => some (s.setDisconnect d (.resume n quit next))
      | none => some (s.setDisconnect d .panicked)
    | _ => none
  | .dropDisconnect d =>
    match s.disconnects d with
    | .running _ _ _ => some (s.setDisconnect d .dropped)
    | _ => none
  | .poll t writes shuffle => s.pollTask codec t writes shuffle
  | .cancel t =>
    if s.aborted t && (s.tasks t).isAlive then some (s.setTask t .cancelled) else none
  | .send n p writes => some ((s.sendPacket codec n p writes).getD s)
  | .setDht key value => some { s with dht := s.dht.set key value }

end Step

/-! ### What a section does -/

variable {codec : Codec Bytes} {s s' : NodeState} {n : PeerID} {writes : Bool}

/-- A send without a panic leaves the state as it is, for want of an encoding or
of a connection, or writes on the connection. -/
theorem sendPacketUnchecked_cases {p : Packet}
    (h : s.sendPacketUnchecked codec n p writes = some s') :
    (s' = s ∧ ((∃ e, codec.rawBytes p = .error e) ∨ s.pool.connections[n]? = none)) ∨
      ∃ peer body, codec.rawBytes p = .ok body ∧ s.pool.connections[n]? = some peer ∧
        s' = s.wrote peer.writeStream p := by
  rw [sendPacketUnchecked] at h
  cases hp : codec.rawBytes p with
  | error e =>
    rw [hp] at h
    exact Or.inl ⟨(Option.some.inj h).symm, Or.inl ⟨e, rfl⟩⟩
  | ok body =>
    simp only [hp] at h
    cases hn : s.pool.connections[n]? with
    | none =>
      rw [hn] at h
      exact Or.inl ⟨(Option.some.inj h).symm, Or.inr rfl⟩
    | some peer =>
      simp only [hn] at h
      split at h
      · exact Or.inr ⟨peer, body, rfl, rfl, (Option.some.inj h).symm⟩
      · cases h

theorem sendPacket_cases {p : Packet} (h : s.sendPacket codec n p writes = some s') :
    s' = s ∨ ∃ peer body, (∀ q, p ≠ .quit q) ∧ codec.rawBytes p = .ok body ∧
      s.pool.connections[n]? = some peer ∧ s' = s.wrote peer.writeStream p := by
  have hs : (∀ q, p ≠ .quit q) ∧ s.sendPacketUnchecked codec n p writes = some s' := by
    cases p with
    | quit q => cases h
    | _ => exact ⟨by simp, h⟩
  rcases sendPacketUnchecked_cases hs.2 with ⟨rfl, -⟩ | ⟨peer, body, hp, hn, rfl⟩
  · exact Or.inl rfl
  · exact Or.inr ⟨peer, body, hs.1, hp, hn, rfl⟩

/-- **What a section of `disconnect` does.** -/
theorem disconnectSection_cases {quit : QuitPacket} {stage : Disconnecting}
    {next : Option Disconnecting}
    (h : s.disconnectSection codec n quit writes stage = some (s', next)) :
    (stage = .quitting ∧ next = some .removing ∧
      ((s' = s ∧ ((∃ e, codec.rawBytes (.quit quit) = .error e) ∨
          s.pool.connections[n]? = none)) ∨
        ∃ peer body, codec.rawBytes (.quit quit) = .ok body ∧
          s.pool.connections[n]? = some peer ∧ s' = s.wrote peer.writeStream (.quit quit))) ∨
    (stage = .removing ∧
      ((next = none ∧ s.pool.connections[n]? = none ∧ s' = s) ∨
        ∃ peer, next = some .announcing ∧ s.pool.connections[n]? = some peer ∧
          s' = s.removePeer n peer)) ∨
    (stage = .announcing ∧ next = none ∧ s' = { s with announced := s.announced ++ [n] }) := by
  cases stage with
  | quitting =>
    rw [disconnectSection] at h
    cases hs : s.sendPacketUnchecked codec n (.quit quit) writes with
    | none => rw [hs] at h; cases h
    | some u =>
      rw [hs] at h
      cases h
      exact Or.inl ⟨rfl, rfl, sendPacketUnchecked_cases hs⟩
  | removing =>
    rw [disconnectSection] at h
    cases hn : s.pool.connections[n]? with
    | none =>
      rw [hn] at h
      cases h
      exact Or.inr (Or.inl ⟨rfl, Or.inl ⟨rfl, rfl, rfl⟩⟩)
    | some peer =>
      rw [hn] at h
      cases h
      exact Or.inr (Or.inl ⟨rfl, Or.inr ⟨peer, rfl, rfl, rfl⟩⟩)
  | announcing =>
    cases h
    exact Or.inr (Or.inr ⟨rfl, rfl, rfl⟩)

/-- **What a section of `on_packet` does**: nothing to the pool and the streams,
a write of the response on the connection of the peer, or a section of
`disconnect`. -/
theorem handlerSection_cases {shuffle : Shuffle} {handler handler' : Handler}
    (h : s.handlerSection codec n writes shuffle handler = some (s', handler')) :
    ((∃ dht fired, s' = { s with dht := dht, fired := fired }) ∧
      handler'.isQuitting = handler.isQuitting ∧ ∀ q, handler' ≠ .disconnecting .removing q) ∨
    (∃ response p peer body, handler = .reply response p ∧ handler' = .fire p ∧
      (∀ q, response ≠ .quit q) ∧ codec.rawBytes response = .ok body ∧
      s.pool.connections[n]? = some peer ∧ s' = s.wrote peer.writeStream response) ∨
    ∃ stage q next, handler = .disconnecting stage q ∧ handler' = .resume q next ∧
      s.disconnectSection codec n quitReceived writes stage = some (s', next) := by
  cases handler with
  | start p =>
    rw [handlerSection] at h
    cases hp : onPacket s.pool s.dht shuffle p with
    | none => rw [hp] at h; cases h
    | some r =>
      rw [hp] at h
      cases h
      have hstop := firstStop_onPacket hp
      refine Or.inl ⟨⟨r.2, s.fired, rfl⟩, hstop.isQuitting, fun q hq => ?_⟩
      have hquitting := ((hstop.disconnecting _ q).mp hq).1
      cases hquitting
  | listPeers p =>
    cases h
    exact Or.inl ⟨⟨s.dht, s.fired, rfl⟩, rfl, by simp⟩
  | reply response p =>
    rw [handlerSection] at h
    cases hs : s.sendPacket codec n response writes with
    | none => rw [hs] at h; cases h
    | some u =>
      rw [hs] at h
      cases h
      rcases sendPacket_cases hs with rfl | ⟨peer, body, hquit, hp, hn, rfl⟩
      · exact Or.inl ⟨⟨_, _, rfl⟩, rfl, by simp⟩
      · exact Or.inr (Or.inl ⟨response, p, peer, body, rfl, rfl, hquit, hp, hn, rfl⟩)
  | fire p =>
    cases h
    exact Or.inl ⟨⟨s.dht, _, rfl⟩, rfl, by simp⟩
  | disconnecting stage q =>
    rw [handlerSection] at h
    cases hs : s.disconnectSection codec n quitReceived writes stage with
    | none => rw [hs] at h; cases h
    | some r =>
      rw [hs] at h
      cases h
      exact Or.inr (Or.inr ⟨stage, q, r.2, rfl, rfl, hs⟩)
  | finished =>
    cases h
    exact Or.inl ⟨⟨s.dht, s.fired, rfl⟩, rfl, by simp⟩

/-- After a section, a call of `on_packet` is past its start, and what it answers
with is a response. -/
theorem handlerSection_stop {shuffle : Shuffle} {handler handler' : Handler}
    (h : s.handlerSection codec n writes shuffle handler = some (s', handler')) :
    (∀ p, handler' ≠ .start p) ∧
      ∀ response p, handler' = .reply response p → response.isResponse = true := by
  cases handler with
  | start p =>
    rw [handlerSection] at h
    cases hp : onPacket s.pool s.dht shuffle p with
    | none => rw [hp] at h; cases h
    | some r =>
      rw [hp] at h
      cases h
      have hstop := firstStop_onPacket hp
      exact ⟨hstop.ne_start, hstop.reply⟩
  | listPeers p =>
    cases h
    refine ⟨by simp, fun response p' heq => ?_⟩
    cases heq
    rfl
  | reply response p =>
    rw [handlerSection] at h
    split at h
    · cases h
      simp
    · cases h
  | disconnecting stage q =>
    rw [handlerSection] at h
    split at h
    · rename_i next _
      cases h
      cases next <;> simp [Handler.resume]
    · cases h
  | _ => cases h; simp

/-- **What a read task does when it is polled.** -/
theorem pollTask_cases {t : TaskId} {shuffle : Shuffle}
    (h : s.pollTask codec t writes shuffle = some s') :
    (∃ n stream got, s.tasks t = .reading n stream got ∧
      ((∃ b rest, s.inbound stream = b :: rest ∧ parse maxPacketSize got = .incomplete ∧
          s' = { s with inbound := Function.update s.inbound stream rest }.setTask t
            (.reading n stream (got ++ [b]))) ∨
        (parse maxPacketSize got = .incomplete ∧ s.inbound stream = [] ∧
          s.closed stream = true ∧ s' = s.setTask t .panicked) ∨
        (parse maxPacketSize got = .tooLarge ∧ s' = s.setTask t .panicked) ∨
        ∃ body rest handler, parse maxPacketSize got = .complete body rest ∧
          ((∃ e, codec.fromRawBytes body = .error e ∧ handler = .finished) ∨
            ∃ p, codec.fromRawBytes body = .ok p ∧ handler = .start p) ∧
          s' = s.setTask t (.resume n stream handler))) ∨
    ∃ n stream handler, s.tasks t = .handling n stream handler ∧
      ((s.handlerSection codec n writes shuffle handler = none ∧ s' = s.setTask t .panicked) ∨
        ∃ u handler', s.handlerSection codec n writes shuffle handler = some (u, handler') ∧
          s' = u.setTask t (.resume n stream handler')) := by
  rw [pollTask] at h
  split at h
  · rename_i n stream got ht
    refine Or.inl ⟨n, stream, got, ht, ?_⟩
    split at h
    · rename_i hparse
      split at h
      · rename_i b rest hin
        exact Or.inl ⟨b, rest, hin, hparse, (Option.some.inj h).symm⟩
      · rename_i hin
        split at h
        · rename_i hclosed
          exact Or.inr (Or.inl ⟨hparse, hin, hclosed, (Option.some.inj h).symm⟩)
        · cases h
    · rename_i hparse
      exact Or.inr (Or.inr (Or.inl ⟨hparse, (Option.some.inj h).symm⟩))
    · rename_i body rest hparse
      refine Or.inr (Or.inr (Or.inr ⟨body, rest, ?_⟩))
      split at h
      · rename_i p hp
        exact ⟨.start p, hparse, Or.inr ⟨p, hp, rfl⟩, (Option.some.inj h).symm⟩
      · rename_i e he
        exact ⟨.finished, hparse, Or.inl ⟨e, he, rfl⟩, (Option.some.inj h).symm⟩
  · rename_i n stream handler ht
    refine Or.inr ⟨n, stream, handler, ht, ?_⟩
    split at h
    · rename_i u handler' hsec
      exact Or.inr ⟨u, handler', hsec, (Option.some.inj h).symm⟩
    · rename_i hsec
      exact Or.inl ⟨hsec, (Option.some.inj h).symm⟩
  · cases h

theorem tasks_handlerSection {shuffle : Shuffle} {handler handler' : Handler}
    (h : s.handlerSection codec n writes shuffle handler = some (s', handler')) :
    s'.tasks = s.tasks ∧ s'.next = s.next := by
  rcases handlerSection_cases h with ⟨⟨dht, fired, rfl⟩, -⟩ |
    ⟨response, p, peer, body, -, -, -, -, -, rfl⟩ | ⟨stage, q, next, -, -, hsec⟩
  · exact ⟨rfl, rfl⟩
  · exact ⟨rfl, rfl⟩
  · rcases disconnectSection_cases hsec with ⟨-, -, ⟨rfl, -⟩ | ⟨peer, body, -, -, rfl⟩⟩ |
      ⟨-, ⟨-, -, rfl⟩ | ⟨peer, -, -, rfl⟩⟩ | ⟨-, -, rfl⟩ <;> exact ⟨rfl, rfl⟩

/-- What one step can be. -/
inductive Stepped (codec : Codec Bytes) (s : NodeState) : NodeLabel → NodeState → Prop
  | insert {n addr} : Stepped codec s (.insert n addr) (s.insertPeer codec n addr)
  | outside {l dht inbound closed} (hl : ∀ t writes shuffle, l ≠ .poll t writes shuffle) :
      Stepped codec s l { s with dht := dht, inbound := inbound, closed := closed }
  | call {d n quit} : s.disconnects d = .notCalled →
      Stepped codec s (.callDisconnect d n quit) (s.setDisconnect d (.running n quit .quitting))
  | disconnect {d n quit stage u next writes} : s.disconnects d = .running n quit stage →
      s.disconnectSection codec n quit writes stage = some (u, next) →
      Stepped codec s (.disconnect d writes) (u.setDisconnect d (.resume n quit next))
  | disconnectEnds {l d call} (hl : ∀ t writes shuffle, l ≠ .poll t writes shuffle) :
      call = .panicked ∨ call = .dropped → Stepped codec s l (s.setDisconnect d call)
  | poll {t writes shuffle u} : s.pollTask codec t writes shuffle = some u →
      Stepped codec s (.poll t writes shuffle) u
  | cancel {t} : s.aborted t = true → (s.tasks t).isAlive = true →
      Stepped codec s (.cancel t) (s.setTask t .cancelled)
  | send {n p writes peer body} : (∀ q, p ≠ .quit q) → codec.rawBytes p = .ok body →
      s.pool.connections[n]? = some peer →
      Stepped codec s (.send n p writes) (s.wrote peer.writeStream p)

/-- **What a step does.** -/
theorem step_cases {l : NodeLabel} (h : s.step codec l = some s') : Stepped codec s l s' := by
  cases l with
  | insert n addr =>
    cases h
    exact .insert
  | arrive stream bytes =>
    rw [NodeState.step] at h
    split at h
    · cases h
    · cases h
      exact .outside (by simp)
  | close stream =>
    cases h
    exact .outside (by simp)
  | callDisconnect d n quit =>
    rw [NodeState.step] at h
    split at h
    · rename_i hd
      cases h
      exact .call hd
    · cases h
  | disconnect d writes =>
    rw [NodeState.step] at h
    split at h
    · rename_i n quit stage hd
      split at h
      · rename_i hsec
        cases h
        exact .disconnect hd hsec
      · cases h
        exact .disconnectEnds (by simp) (Or.inl rfl)
    · cases h
  | dropDisconnect d =>
    rw [NodeState.step] at h
    split at h
    · cases h
      exact .disconnectEnds (by simp) (Or.inr rfl)
    · cases h
  | poll t writes shuffle => exact .poll h
  | cancel t =>
    rw [NodeState.step] at h
    split at h
    · rename_i hok
      cases h
      obtain ⟨habort, halive⟩ := Bool.and_eq_true_iff.mp hok
      exact .cancel habort halive
    · cases h
  | send n p writes =>
    cases hs : s.sendPacket codec n p writes with
    | none =>
      rw [NodeState.step, hs] at h
      cases h
      exact .outside (by simp)
    | some u =>
      rw [NodeState.step, hs] at h
      cases h
      rcases sendPacket_cases hs with rfl | ⟨peer, body, hquit, hp, hn, rfl⟩
      · exact .outside (by simp)
      · exact .send hquit hp hn
  | setDht key value =>
    cases h
    exact .outside (by simp)

/-! ### What an `insert` does -/

theorem insertPeer_of_some {peer : PeerInfo} {body : Bytes} (addr : String)
    (hn : s.pool.connections[n]? = some peer)
    (hbody : codec.rawBytes (.quit alreadyConnected) = .ok body) :
    s.insertPeer codec n addr =
      { s.wrote s.next (.quit alreadyConnected) with next := s.next + 1 } := by
  simp only [insertPeer, hn, hbody]

theorem insertPeer_of_none (codec : Codec Bytes) (addr : String) (hn : s.pool.connections[n]? = none) :
    s.insertPeer codec n addr =
      { s.setTask s.next (.reading n s.next []) with
        pool := s.pool.insert n
          { addr, writeStream := s.next, pingNanos := none, readStreamTask := s.next }
        next := s.next + 1 } := by
  simp only [insertPeer, hn]

theorem insertPeer_next (codec : Codec Bytes) (s : NodeState) (n : PeerID) (addr : String) :
    (s.insertPeer codec n addr).next = s.next + 1 ∧
      (s.insertPeer codec n addr).inbound = s.inbound ∧
      (s.insertPeer codec n addr).closed = s.closed ∧
      (s.insertPeer codec n addr).aborted = s.aborted := by
  rw [insertPeer]
  split
  · split <;> exact ⟨rfl, rfl, rfl, rfl⟩
  · exact ⟨rfl, rfl, rfl, rfl⟩

theorem insertPeer_of_ne (codec : Codec Bytes) (n : PeerID) (addr : String) {stream : StreamId}
    (h : stream ≠ s.next) :
    (s.insertPeer codec n addr).tasks stream = s.tasks stream ∧
      (s.insertPeer codec n addr).written stream = s.written stream := by
  rw [insertPeer]
  split
  · split
    · exact ⟨rfl, Function.update_of_ne h _ _⟩
    · exact ⟨rfl, rfl⟩
  · exact ⟨Function.update_of_ne h _ _, rfl⟩

end NodeState

/-! ### Numbers -/

/-- What has a number below `next` and what has none yet. -/
structure Numbered (s : NodeState) : Prop where
  entries : ∀ (n : PeerID) (peer : PeerInfo), s.pool.connections[n]? = some peer →
    peer.writeStream < s.next ∧ peer.readStreamTask < s.next
  tasks : ∀ t, s.next ≤ t → s.tasks t = .notSpawned
  aborted : ∀ t, s.next ≤ t → s.aborted t = false
  written : ∀ stream, s.next ≤ stream → s.written stream = []

namespace Numbered

open NodeState

variable {codec : Codec Bytes} {s s' : NodeState} {n : PeerID} {peer : PeerInfo} {writes : Bool}

theorem init (ourPeerId : PeerID) : Numbered (NodeState.init ourPeerId) where
  entries n peer hn := by simp [NodeState.init, ConnectionPool.new] at hn
  tasks _ _ := rfl
  aborted _ _ := rfl
  written _ _ := rfl

theorem lt_of_task (num : Numbered s) {t : TaskId} (h : s.tasks t ≠ .notSpawned) : t < s.next := by
  by_contra hle
  exact h (num.tasks t (Nat.le_of_not_lt hle))

theorem wrote (num : Numbered s) (hn : s.pool.connections[n]? = some peer) (p : Packet) :
    Numbered (s.wrote peer.writeStream p) where
  entries := num.entries
  tasks := num.tasks
  aborted := num.aborted
  written stream hle := by
    have hne : stream ≠ peer.writeStream := (lt_of_lt_of_le (num.entries n peer hn).1 hle).ne'
    exact (Function.update_of_ne hne _ _).trans (num.written stream hle)

theorem removePeer (num : Numbered s) (hn : s.pool.connections[n]? = some peer) :
    Numbered (s.removePeer n peer) where
  entries m peer' hm := by
    rw [getElem?_removePeer] at hm
    split at hm
    · cases hm
    · exact num.entries m peer' hm
  tasks := num.tasks
  aborted t hle := by
    have hne : t ≠ peer.readStreamTask := (lt_of_lt_of_le (num.entries n peer hn).2 hle).ne'
    exact (Function.update_of_ne hne _ _).trans (num.aborted t hle)
  written := num.written

theorem setTask (num : Numbered s) {t : TaskId} (ht : t < s.next) (task : ReadTask) :
    Numbered (s.setTask t task) where
  entries := num.entries
  tasks t' hle := (Function.update_of_ne (lt_of_lt_of_le ht hle).ne' _ _).trans (num.tasks t' hle)
  aborted := num.aborted
  written := num.written

theorem disconnectSection (num : Numbered s) {quit : QuitPacket} {stage : Disconnecting}
    {next : Option Disconnecting}
    (h : s.disconnectSection codec n quit writes stage = some (s', next)) : Numbered s' := by
  rcases disconnectSection_cases h with ⟨-, -, ⟨rfl, -⟩ | ⟨peer, body, -, hn, rfl⟩⟩ |
    ⟨-, ⟨-, -, rfl⟩ | ⟨peer, -, hn, rfl⟩⟩ | ⟨-, -, rfl⟩
  · exact num
  · exact num.wrote hn _
  · exact num
  · exact num.removePeer hn
  · exact ⟨num.entries, num.tasks, num.aborted, num.written⟩

theorem handlerSection (num : Numbered s) {shuffle : Shuffle} {handler handler' : Handler}
    (h : s.handlerSection codec n writes shuffle handler = some (s', handler')) :
    Numbered s' := by
  rcases handlerSection_cases h with ⟨⟨dht, fired, rfl⟩, -⟩ |
    ⟨response, p, peer, body, -, -, -, -, hn, rfl⟩ | ⟨stage, q, next, -, -, hsec⟩
  · exact ⟨num.entries, num.tasks, num.aborted, num.written⟩
  · exact num.wrote hn response
  · exact num.disconnectSection hsec

theorem insertPeer (num : Numbered s) (n : PeerID) (addr : String) :
    Numbered (s.insertPeer codec n addr) := by
  have hentries : ∀ (m : PeerID) (peer : PeerInfo), s.pool.connections[m]? = some peer →
      peer.writeStream < s.next + 1 ∧ peer.readStreamTask < s.next + 1 := by
    intro m peer hm
    obtain ⟨hstream, htask⟩ := num.entries m peer hm
    exact ⟨Nat.lt_succ_of_lt hstream, Nat.lt_succ_of_lt htask⟩
  rw [NodeState.insertPeer]
  cases hn : s.pool.connections[n]? with
  | some peer =>
    cases codec.rawBytes (.quit alreadyConnected) with
    | error e =>
      exact ⟨hentries, fun t hlt => num.tasks t (Nat.le_of_succ_le hlt),
        fun t hlt => num.aborted t (Nat.le_of_succ_le hlt),
        fun stream hlt => num.written stream (Nat.le_of_succ_le hlt)⟩
    | ok body =>
      refine ⟨hentries, fun t hlt => num.tasks t (Nat.le_of_succ_le hlt),
        fun t hlt => num.aborted t (Nat.le_of_succ_le hlt), fun stream hlt => ?_⟩
      exact (Function.update_of_ne (Nat.ne_of_gt hlt) _ _).trans
          (num.written stream (Nat.le_of_succ_le hlt))
  | none =>
    refine ⟨fun m peer' hm => ?_, fun t hlt => ?_,
      fun t hlt => num.aborted t (Nat.le_of_succ_le hlt),
      fun stream hlt => num.written stream (Nat.le_of_succ_le hlt)⟩
    · simp only [ConnectionPool.getElem?_insert] at hm
      split at hm
      · cases hm
        exact ⟨Nat.lt_succ_self _, Nat.lt_succ_self _⟩
      · exact hentries m peer' hm
    · exact (Function.update_of_ne (Nat.ne_of_gt hlt) _ _).trans
        (num.tasks t (Nat.le_of_succ_le hlt))

theorem pollTask (num : Numbered s) {t : TaskId} {shuffle : Shuffle}
    (h : s.pollTask codec t writes shuffle = some s') : Numbered s' := by
  rcases pollTask_cases h with ⟨n, stream, got, ht, hcase⟩ | ⟨n, stream, handler, ht, hcase⟩
  · have hlt : t < s.next := num.lt_of_task (by rw [ht]; simp)
    rcases hcase with ⟨b, rest, -, -, rfl⟩ | ⟨-, -, -, rfl⟩ | ⟨-, rfl⟩ |
      ⟨-, -, handler, -, -, rfl⟩
    · have hread : Numbered { s with inbound := Function.update s.inbound stream rest } :=
        ⟨num.entries, num.tasks, num.aborted, num.written⟩
      exact hread.setTask hlt _
    · exact num.setTask hlt _
    · exact num.setTask hlt _
    · exact num.setTask hlt _
  · have hlt : t < s.next := num.lt_of_task (by rw [ht]; simp)
    rcases hcase with ⟨-, rfl⟩ | ⟨u, handler', hsec, rfl⟩
    · exact num.setTask hlt _
    · exact (num.handlerSection hsec).setTask ((tasks_handlerSection hsec).2 ▸ hlt) _

theorem setDisconnect (num : Numbered s) (d : ℕ) (call : DisconnectCall) :
    Numbered (s.setDisconnect d call) :=
  ⟨num.entries, num.tasks, num.aborted, num.written⟩

theorem step (num : Numbered s) {l : NodeLabel} (h : s.step codec l = some s') :
    Numbered s' := by
  cases step_cases h with
  | insert => exact num.insertPeer _ _
  | outside => exact ⟨num.entries, num.tasks, num.aborted, num.written⟩
  | call => exact num.setDisconnect _ _
  | disconnect _ hsec => exact (num.disconnectSection hsec).setDisconnect _ _
  | disconnectEnds => exact num.setDisconnect _ _
  | poll hpoll => exact num.pollTask hpoll
  | cancel _ halive =>
    refine num.setTask (num.lt_of_task fun hnone => ?_) _
    rw [hnone] at halive
    cases halive
  | send _ _ hn => exact num.wrote hn _

end Numbered

end Tewta
