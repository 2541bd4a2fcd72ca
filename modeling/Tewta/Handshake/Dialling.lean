import Tewta.Handshake.Course
import Tewta.Node.Reading

/-!
# Two nodes that dial each other

Each of two nodes dials the other once, so there are two streams, each named
after the side that dialled it, and four calls of `handshake`, one on each end of
each stream.  `Dialling.step` lets them take turns in any order, together with
the read tasks of the connections that get into the pools and with any other
packets the nodes send each other.

A stream is the sequence of frames written on it, with the number of those that
the other end has taken.  The frames of a call of `handshake` come first, and
after them what its node writes through the pool, or on refusing the connection.
Frames are taken whole by the handshake, which reads nothing else in between, and
byte by byte by the read task.  The end of the stream comes after the last frame,
once the writing half is dropped.

Nothing times out, no write fails, and nobody calls `disconnect` but `on_packet`.
-/

namespace Tewta

open Framing Duplex NodeState

variable {PrivateKey Seed : Type} {crates : Crates Bytes PrivateKey Seed}

/-- The two nodes; the expectation and the draws of a call are by node and stream. -/
structure Dialling (crates : Crates Bytes PrivateKey Seed) where
  identity : Side → Identity crates
  expectedPeerId : Side → Side → Option PeerID
  draws : Side → Side → Draws Seed

namespace Dialling

/-- The two ends of a stream. -/
def ends (d : Dialling crates) (c : Side) : Ends crates :=
  fun k => ⟨d.identity k, d.expectedPeerId k c, d.draws k c⟩

/-- The id of the other node. -/
def them (d : Dialling crates) (k : Side) : PeerID := (d.identity k.other).peerId

end Dialling

/-- Where a call of `handshake` stands.  An insertion, whether it goes well or is
refused, gives the stream its number. -/
inductive DialCall
  | running (stage : Stage)
  | failed (e : HandshakeError)
  | refused (stream : StreamId)
  | inserted (stream : StreamId)

def DialCall.stream? : DialCall → Option StreamId
  | .refused stream => some stream
  | .inserted stream => some stream
  | _ => none

/-- What there is by node and stream: the call, the frames it has written, and the
number of frames that were taken from the other end. -/
structure DialState where
  nodes : Side → NodeState
  calls : Side × Side → DialCall
  sent : Side × Side → List Bytes
  taken : Side × Side → ℕ

inductive DialLabel
  /-- a call of `handshake` takes its next step -/
  | handshake (k c : Side)
  /-- a frame arrives for a read task -/
  | deliver (k c : Side)
  /-- the end of the stream arrives for a read task -/
  | hangUp (k c : Side)
  /-- a read task runs its next section -/
  | poll (k : Side) (t : TaskId) (shuffle : Shuffle)
  /-- a read task that was aborted is dropped -/
  | cancel (k : Side) (t : TaskId)
  /-- any other task sends the other node a packet -/
  | send (k : Side) (p : Packet)
  /-- a value is stored -/
  | setDht (k : Side) (key : KeyID) (value : DhtValue)

namespace DialState

def setNode (s : DialState) (k : Side) (node : NodeState) : DialState :=
  { s with nodes := Function.update s.nodes k node }

def setCall (s : DialState) (k c : Side) (call : DialCall) : DialState :=
  { s with calls := Function.update s.calls (k, c) call }

/-- A call writes a frame. -/
def write (s : DialState) (k c : Side) (body : Bytes) : DialState :=
  { s with sent := Function.update s.sent (k, c) (s.sent (k, c) ++ [body]) }

/-- A frame is taken. -/
def take (s : DialState) (k c : Side) : DialState :=
  { s with taken := Function.update s.taken (k, c) (s.taken (k, c) + 1) }

/-- The packets written on a stream once the handshake was over. -/
def packets (s : DialState) (k c : Side) : List Packet :=
  match (s.calls (k, c)).stream? with
  | some stream => (s.nodes k).written stream
  | none => []

/-- The bodies of the frames written on a stream. -/
def frames (codec : Codec Bytes) (s : DialState) (k c : Side) : List Bytes :=
  s.sent (k, c) ++ (s.packets k c).map (encoded codec)

/-- Is the writing half of an end dropped?  The pool drops it with the entry. -/
def hungUp (s : DialState) (k c : Side) : Bool :=
  match s.calls (k, c) with
  | .running _ => false
  | .failed _ => true
  | .refused _ => true
  | .inserted stream => (s.nodes k).aborted stream

def Inserted (s : DialState) (k c : Side) : Prop := ∃ stream, s.calls (k, c) = .inserted stream

def Refused (s : DialState) (k c : Side) : Prop := ∃ stream, s.calls (k, c) = .refused stream

end DialState

namespace Dialling

open DialState

variable (d : Dialling crates)

/-- Nobody has done anything yet. -/
def init : DialState where
  nodes k := NodeState.init (d.identity k).peerId
  calls _ := .running .sendVersion
  sent _ := []
  taken _ := 0

/-- `Node::handshake` after `handshake_raw` has returned: the connection goes into
the pool, or the error into a Quit. -/
def returned (crates : Crates Bytes PrivateKey Seed) (s : DialState) (k c : Side) :
    Stage → Option DialState
  | .ok theirPeerId addr _ =>
    let node := s.nodes k
    let call := match node.pool.connections[theirPeerId]? with
      | some _ => DialCall.refused node.next
      | none => DialCall.inserted node.next
    some ((s.setNode k (node.insertPeer crates.toCodec theirPeerId addr)).setCall k c call)
  | .err e =>
    match encode crates (.quit e.toQuit) with
    | .ok body => some ((s.write k c body).setCall k c (.failed e))
    | .error e => some (s.setCall k c (.failed e))
  | _ => none

/-- The next step of a call of `handshake`. -/
def handshake (s : DialState) (k c : Side) (stage : Stage) : Option DialState :=
  match stage.awaits (d.ends c k) with
  | .write (.ok body) => some ((s.write k c body).setCall k c (.running stage.sent))
  | .write (.error e) => some (s.setCall k c (.running (stage.failed e)))
  | .frame =>
    match (s.frames crates.toCodec k.other c)[s.taken (k, c)]? with
    | some body =>
      if body.length < maxPacketSize then
        some ((s.take k c).setCall k c (.running (stage.received (d.ends c k) body)))
      else some ((s.take k c).setCall k c (.running (stage.failed .packetTooLarge)))
    | none =>
      if s.hungUp k.other c then
        some (s.setCall k c (.running (stage.failed (.ioError ⟨"early eof"⟩))))
      else none
  | .contains peerId =>
    some (s.setCall k c (.running (stage.checked ((s.nodes k).pool.contains peerId))))
  | .returned => returned crates s k c stage

/-- A node takes a step of its own. -/
def nodeStep (codec : Codec Bytes) (s : DialState) (k : Side) (l : NodeLabel) : Option DialState :=
  ((s.nodes k).step codec l).map (s.setNode k)

/-- One step of the two nodes. -/
def step (s : DialState) : DialLabel → Option DialState
  | .handshake k c =>
    match s.calls (k, c) with
    | .running stage => d.handshake s k c stage
    | _ => none
  | .deliver k c =>
    match s.calls (k, c) with
    | .inserted stream =>
      match (s.frames crates.toCodec k.other c)[s.taken (k, c)]? with
      | some body => nodeStep crates.toCodec (s.take k c) k (.arrive stream (frame body))
      | none => none
    | _ => none
  | .hangUp k c =>
    match s.calls (k, c) with
    | .inserted stream =>
      if s.hungUp k.other c ∧ (s.frames crates.toCodec k.other c).length ≤ s.taken (k, c) then
        nodeStep crates.toCodec s k (.close stream)
      else none
    | _ => none
  | .poll k t shuffle => nodeStep crates.toCodec s k (.poll t true shuffle)
  | .cancel k t => nodeStep crates.toCodec s k (.cancel t)
  | .send k p => nodeStep crates.toCodec s k (.send (d.them k) p true)
  | .setDht k key value => nodeStep crates.toCodec s k (.setDht key value)

/-- A packet whose frame, if it has one, is not too large. -/
def Fits (crates : Crates Bytes PrivateKey Seed) (p : Packet) : Prop :=
  ∀ body, crates.rawBytes p = .ok body → body.length < maxPacketSize

/-- The other packets that the nodes send each other are no packets of the
handshake, and neither they nor the responses to them are too large. -/
def Civil (crates : Crates Bytes PrivateKey Seed) (s : DialState) : DialLabel → Prop
  | .send _ p => p.isHandshake = false ∧ Fits crates p
  | .poll k t _ => ∀ n stream response p,
      (s.nodes k).tasks t = .handling n stream (.reply response p) → Fits crates response
  | _ => True

/-- No handshake is running and no message is in flight: a read task that is alive
has handled everything that was written on its stream. -/
def Quiescent (s : DialState) : Prop :=
  ∀ k c, match s.calls (k, c) with
    | .running _ => False
    | .inserted stream => ((s.nodes k).tasks stream).isAlive = true →
        (s.nodes k).tasks stream = .reading (d.them k) stream [] ∧
          (s.nodes k).inbound stream = [] ∧
          s.taken (k, c) = (s.frames crates.toCodec k.other c).length
    | _ => True

/-- The pool of a node has the other node over a stream. -/
def HoldsOver (s : DialState) (k c : Side) : Prop :=
  ∃ stream peer, s.calls (k, c) = .inserted stream ∧
    (s.nodes k).pool.connections[d.them k]? = some peer ∧ peer.writeStream = stream

/-- Each node has inserted one stream and refused the other, and they have chosen
differently. -/
def Crossed (s : DialState) : Prop :=
  ∃ c : Side, s.Inserted .left c ∧ s.Refused .left c.other ∧
    s.Inserted .right c.other ∧ s.Refused .right c

end Dialling

end Tewta
