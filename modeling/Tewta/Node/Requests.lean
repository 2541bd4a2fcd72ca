import Tewta.Lib.Broadcast
import Tewta.Node.Events
import Tewta.Node.System

/-!
# Requests and their responses

The tasks of a node that ask a peer something and wait for the answer: a ping, a
lookup on one provider, one request of a discovery.  Each takes an id from a
counter, registers a listener, sends its request, and receives the events of
`on_packet` until one is from its peer and carries its id.  A ping does the second
and the third the other way round, and gives up after a while.

`AskState` is a node with any number of such tasks, and `AskState.step` lets them
and everything else take turns.  The events that the node fires are numbered, so
that one can say which event a task has received; the code does not see the number,
and neither does it see where a counter stands beyond its thirty-two bits.
-/

namespace Tewta

open Broadcast NodeState

/-- The listeners that responses are sent to: `on_pong_packet`,
`on_find_dht_value_resp_packet` and `on_discover_peers_resp_packet`. -/
inductive Topic
  | pong
  | findDhtValueResp
  | discoverPeersResp
  deriving DecidableEq

/-- The id of a response. -/
def Topic.idOf : Topic → Packet → Option UInt32
  | .pong, .pong p => some p.pingId
  | .findDhtValueResp, .findDhtValueResp p => some p.requestId
  | .discoverPeersResp, .discoverPeersResp p => some p.requestId
  | _, _ => none

/-- What is asked. -/
inductive Question
  | ping
  | findDhtValue (key : KeyID)
  | discoverPeers (target : PeerID) (mask : Bytes)

inductive AskAction
  | listen
  | send
  deriving DecidableEq

namespace Question

def topic : Question → Topic
  | .ping => .pong
  | .findDhtValue _ => .findDhtValueResp
  | .discoverPeers _ _ => .discoverPeersResp

def packet (id : UInt32) : Question → Packet
  | .ping => .ping { pingId := id }
  | .findDhtValue key => .findDhtValue
      { requestId := id, key, limitPeers := maxDhtPeersReturned,
        limitValues := maxDhtValuesReturned }
  | .discoverPeers target mask => .discoverPeers
      { requestId := id, target, mask, limit := maxDiscoveryPeersReturned }

/-- What there is to do before the waiting, in the order of the sources. -/
def actions : Question → List AskAction
  | .ping => [.send, .listen]
  | .findDhtValue _ => [.listen, .send]
  | .discoverPeers _ _ => [.listen, .send]

end Question

/-- An event of `on_packet`, with its place among all of them. -/
structure PacketEvent where
  number : ℕ
  peerId : PeerID
  packet : Packet
  deriving DecidableEq

/-- A receiver, and how many events there were before it was made. -/
structure Listening where
  receiver : ℕ
  after : ℕ

/-- How many events there were before a request was sent, and the stream it was written
on, if there was one. -/
structure Sent where
  after : ℕ
  stream : Option StreamId

/-- Where a task stands: it asks and waits, it has called `disconnect` with or without
an answer, or it is over. -/
inductive Phase
  | asking
  | closing (answer : Option PacketEvent) (stage : Disconnecting)
  | ended (answer : Option PacketEvent)
  | dropped
  | panicked

/-- Is the receiver still there? -/
def Phase.listens : Phase → Bool
  | .asking => true
  | .closing (some _) _ => true
  | _ => false

/-- The event that was accepted. -/
def Phase.answer? : Phase → Option PacketEvent
  | .closing answer _ => answer
  | .ended answer => answer
  | _ => none

/-- A task that asks a peer.  `ticket` is the place of its id among those the counter has
handed out, and `closes` is whether it calls `disconnect`: a lookup on a connection of
its own once it has its answer, a periodic ping once it has none. -/
structure Request where
  question : Question
  peerId : PeerID
  closes : Bool
  ticket : ℕ
  todo : List AskAction
  listening : Option Listening
  sent : Option Sent
  timedOut : Option ℕ
  phase : Phase

namespace Request

/-- The id, of thirty-two bits. -/
def id (req : Request) : UInt32 := UInt32.ofNat req.ticket

def topic (req : Request) : Topic := req.question.topic

/-- The test of the receive loop. -/
def Answers (req : Request) (event : PacketEvent) : Prop :=
  event.peerId = req.peerId ∧ req.topic.idOf event.packet = some req.id

instance (req : Request) (event : PacketEvent) : Decidable (req.Answers event) :=
  inferInstanceAs (Decidable (_ ∧ _))

/-- The task is in its receive loop. -/
def Waiting (req : Request) : Prop := req.phase = .asking ∧ req.todo = []

/-- The phase after an answer. -/
def answered (req : Request) (event : PacketEvent) : Phase :=
  match req.question with
  | .ping => .ended (some event)
  | _ => if req.closes then .closing (some event) .quitting else .ended (some event)

/-- The phase after the timeout. -/
def gaveUp (req : Request) : Phase :=
  if req.closes then .closing none .quitting else .ended none

end Request

/-- The Quit of a task, after an answer and without one. -/
def closingQuit : Option PacketEvent → QuitPacket
  | some _ => { reasonCode := "MissionAccomplished", message := none, reportFault := false }
  | none => { reasonCode := "Timeout", message := none, reportFault := false }

/-- A node with the tasks that ask.  `counters` counts all the ids handed out. -/
structure AskState where
  node : NodeState
  counters : Topic → ℕ
  listeners : Topic → Listeners PacketEvent
  requests : ℕ → Option Request

inductive AskLabel
  /-- anything else the node does -/
  | node (l : NodeLabel)
  /-- a task takes its id -/
  | ask (r : ℕ) (question : Question) (peerId : PeerID) (closes : Bool)
  /-- a task runs its next section -/
  | run (r : ℕ) (writes : Bool)
  /-- the time of a ping is over -/
  | timeout (r : ℕ)
  /-- a task is dropped -/
  | drop (r : ℕ)

namespace AskState

def init (ourPeerId : PeerID) : AskState where
  node := NodeState.init ourPeerId
  counters _ := 0
  listeners _ := .empty
  requests _ := none

def setRequest (s : AskState) (r : ℕ) (req : Request) : AskState :=
  { s with requests := Function.update s.requests r (some req) }

def setListeners (s : AskState) (topic : Topic) (listeners : Listeners PacketEvent) : AskState :=
  { s with listeners := Function.update s.listeners topic listeners }

/-- An event is sent to the listeners of its topic. -/
def deliver (s : AskState) (event : PacketEvent) : AskState :=
  { s with
    listeners := fun topic =>
      if (topic.idOf event.packet).isSome then (s.listeners topic).event event
      else s.listeners topic }

/-- **What a response does to the listeners** of a topic is what `event` does when nothing
comes between its sends, if the response is of that topic. -/
theorem exec_deliver (s : AskState) (event : PacketEvent) {topic : Topic}
    {e : EventListeners PacketEvent} (hlock : e.lock = none)
    (hlisteners : e.listeners = s.listeners topic) : ∃ labels e',
    Transition.exec EventListeners.step e labels = some e' ∧ e'.lock = none ∧
      e'.listeners = (s.deliver event).listeners topic := by
  by_cases hid : (topic.idOf event.packet).isSome = true
  · obtain ⟨n, hexec⟩ := EventListeners.exec_event hlock event
    refine ⟨_, _, hexec, hlock, ?_⟩
    simp only [deliver, if_pos hid, hlisteners]
  · refine ⟨[], e, Transition.exec_nil e, hlock, ?_⟩
    simp only [deliver, if_neg hid, hlisteners]

/-- The node has taken a step, and may have fired an event. -/
def afterNode (s : AskState) (node : NodeState) : AskState :=
  match node.fired[s.node.fired.length]? with
  | some (n, p) => { s with node }.deliver ⟨s.node.fired.length, n, p⟩
  | none => { s with node }

/-- A task goes on in a phase, and drops its receiver when it is done with it. -/
def setPhase (s : AskState) (r : ℕ) (req : Request) (phase : Phase) : AskState :=
  let s' := s.setRequest r { req with phase }
  match req.listening with
  | some listening =>
    if phase.listens then s'
    else s'.setListeners req.topic ((s.listeners req.topic).drop listening.receiver)
  | none => s'

section Step

variable (codec : Codec Bytes)

/-- The stream that a request is written on. -/
def streamOf (s : AskState) (req : Request) : Option StreamId :=
  match codec.rawBytes (req.question.packet req.id) with
  | .ok _ => (s.node.pool.connections[req.peerId]?).map (·.writeStream)
  | .error _ => none

/-- The next section of a task that asks. -/
def runAsking (s : AskState) (r : ℕ) (req : Request) (writes : Bool) : Option AskState :=
  match req.todo with
  | .listen :: todo =>
    let l := s.listeners req.topic
    some ((s.setListeners req.topic l.listen).setRequest r
      { req with todo, listening := some ⟨l.next, s.node.fired.length⟩ })
  | .send :: todo =>
    match s.node.sendPacket codec req.peerId (req.question.packet req.id) writes with
    | some node =>
      some ({ s with node }.setRequest r
        { req with todo, sent := some ⟨s.node.fired.length, s.streamOf codec req⟩ })
    | none => some (s.setPhase r req .panicked)
  | [] =>
    match req.listening with
    | some listening =>
      match (s.listeners req.topic).recv listening.receiver with
      | some (event, l) =>
        if req.Answers event then
          some ((s.setListeners req.topic l).setPhase r req (req.answered event))
        else some (s.setListeners req.topic l)
      | none => none
    | none => none

/-- The next section of a task. -/
def run (s : AskState) (r : ℕ) (req : Request) (writes : Bool) : Option AskState :=
  match req.phase with
  | .asking => s.runAsking codec r req writes
  | .closing answer stage =>
    match s.node.disconnectSection codec req.peerId (closingQuit answer) writes stage with
    | some (node, some stage) => some ({ s with node }.setPhase r req (.closing answer stage))
    | some (node, none) => some ({ s with node }.setPhase r req (.ended answer))
    | none => some (s.setPhase r req .panicked)
  | _ => none

/-- One step of a node with its tasks. -/
def step (s : AskState) : AskLabel → Option AskState
  | .node l => (s.node.step codec l).map s.afterNode
  | .ask r question peerId closes =>
    match s.requests r with
    | none =>
      let topic := question.topic
      some ({ s with counters := Function.update s.counters topic (s.counters topic + 1) }.setRequest
        r { question, peerId, closes, ticket := s.counters topic, todo := question.actions,
            listening := none, sent := none, timedOut := none, phase := .asking })
    | some _ => none
  | .run r writes =>
    match s.requests r with
    | some req => s.run codec r req writes
    | none => none
  | .timeout r =>
    match s.requests r with
    | some req =>
      match req.question, req.phase, req.todo, req.listening with
      | .ping, .asking, [], some listening =>
        -- the receiver is asked once more before the time is looked at
        match (s.listeners req.topic).queue listening.receiver with
        | [] => some (s.setPhase r { req with timedOut := some s.node.fired.length } req.gaveUp)
        | _ :: _ => none
      | _, _, _, _ => none
    | none => none
  | .drop r =>
    match s.requests r with
    | some req =>
      match req.phase with
      | .asking => some (s.setPhase r req .dropped)
      | .closing _ _ => some (s.setPhase r req .dropped)
      | _ => none
    | none => none

end Step

/-! ### What a step does -/

theorem afterNode_of_eq {s : AskState} {node : NodeState} (h : node.fired = s.node.fired) :
    s.afterNode node = { s with node } := by
  rw [afterNode, h, List.getElem?_eq_none_iff.mpr le_rfl]

theorem afterNode_of_append {s : AskState} {node : NodeState} {n : PeerID} {p : Packet}
    (h : node.fired = s.node.fired ++ [(n, p)]) :
    s.afterNode node = { s with node }.deliver ⟨s.node.fired.length, n, p⟩ := by
  rw [afterNode, h, List.getElem?_concat_length]

@[simp] theorem node_afterNode (s : AskState) (node : NodeState) :
    (s.afterNode node).node = node := by
  rw [afterNode]
  split <;> rfl

@[simp] theorem requests_afterNode (s : AskState) (node : NodeState) :
    (s.afterNode node).requests = s.requests := by
  rw [afterNode]
  split <;> rfl

section SetPhase

variable {s : AskState} {r : ℕ} {req : Request} {phase : Phase}

theorem requests_setPhase : (s.setPhase r req phase).requests =
    Function.update s.requests r (some { req with phase }) := by
  rw [setPhase]
  split
  · split <;> rfl
  · rfl

@[simp] theorem requests_setPhase_self :
    (s.setPhase r req phase).requests r = some { req with phase } :=
  (congrFun requests_setPhase r).trans (Function.update_self _ _ _)

@[simp] theorem node_setPhase : (s.setPhase r req phase).node = s.node := by
  rw [setPhase]
  split
  · split <;> rfl
  · rfl

@[simp] theorem counters_setPhase : (s.setPhase r req phase).counters = s.counters := by
  rw [setPhase]
  split
  · split <;> rfl
  · rfl

theorem listeners_setPhase (topic : Topic) :
    (s.setPhase r req phase).listeners topic = s.listeners topic ∨
      topic = req.topic ∧ phase.listens = false ∧ ∃ x, req.listening = some x ∧
        (s.setPhase r req phase).listeners topic = (s.listeners topic).drop x.receiver := by
  rw [setPhase]
  split
  · rename_i x hx
    split
    · exact Or.inl rfl
    · rename_i hlistens
      by_cases heq : topic = req.topic
      · subst heq
        refine Or.inr ⟨rfl, by simpa using hlistens, x, hx, ?_⟩
        exact Function.update_self _ _ _
      · exact Or.inl (Function.update_of_ne heq _ _)
  · exact Or.inl rfl

@[simp] theorem queue_setPhase (topic : Topic) :
    ((s.setPhase r req phase).listeners topic).queue = (s.listeners topic).queue := by
  rcases listeners_setPhase topic with heq | ⟨-, -, x, -, heq⟩ <;> rw [heq]
  rfl

@[simp] theorem next_setPhase (topic : Topic) :
    ((s.setPhase r req phase).listeners topic).next = (s.listeners topic).next := by
  rcases listeners_setPhase topic with heq | ⟨-, -, x, -, heq⟩ <;> rw [heq]
  rfl

end SetPhase

/-- What one step can be. -/
inductive Asked (codec : Codec Bytes) (s : AskState) : AskLabel → AskState → Prop
  | node {l node} : s.node.step codec l = some node → Asked codec s (.node l) (s.afterNode node)
  | ask {r question peerId closes} : s.requests r = none →
      Asked codec s (.ask r question peerId closes)
        ({ s with
            counters := Function.update s.counters question.topic (s.counters question.topic + 1)
          }.setRequest r
          { question, peerId, closes, ticket := s.counters question.topic, todo := question.actions,
            listening := none, sent := none, timedOut := none, phase := .asking })
  | listen {r req todo writes} : s.requests r = some req → req.phase = .asking →
      req.todo = .listen :: todo →
      Asked codec s (.run r writes)
        ((s.setListeners req.topic (s.listeners req.topic).listen).setRequest r
          { req with
            todo, listening := some ⟨(s.listeners req.topic).next, s.node.fired.length⟩ })
  | send {r req todo writes node} : s.requests r = some req → req.phase = .asking →
      req.todo = .send :: todo →
      s.node.sendPacket codec req.peerId (req.question.packet req.id) writes = some node →
      Asked codec s (.run r writes) ({ s with node }.setRequest r
        { req with todo, sent := some ⟨s.node.fired.length, s.streamOf codec req⟩ })
  | ignore {r req listening event rest writes} : s.requests r = some req → req.phase = .asking →
      req.todo = [] → req.listening = some listening →
      (s.listeners req.topic).queue listening.receiver = event :: rest → ¬ req.Answers event →
      Asked codec s (.run r writes) (s.setListeners req.topic { s.listeners req.topic with
        queue := Function.update (s.listeners req.topic).queue listening.receiver rest })
  | accept {r req listening event rest writes} : s.requests r = some req → req.phase = .asking →
      req.todo = [] → req.listening = some listening →
      (s.listeners req.topic).queue listening.receiver = event :: rest → req.Answers event →
      Asked codec s (.run r writes) ((s.setListeners req.topic { s.listeners req.topic with
        queue := Function.update (s.listeners req.topic).queue listening.receiver rest }).setPhase r
          req (req.answered event))
  | close {r req answer stage node next writes} : s.requests r = some req →
      req.phase = .closing answer stage →
      s.node.disconnectSection codec req.peerId (closingQuit answer) writes stage =
        some (node, next) →
      Asked codec s (.run r writes) ({ s with node }.setPhase r req
        (match next with
          | some stage => .closing answer stage
          | none => .ended answer))
  | fail {l r req phase} : s.requests r = some req →
      (req.phase = .asking ∨ ∃ answer stage, req.phase = .closing answer stage) →
      (phase = .dropped ∨ phase = .panicked) →
      (l = .drop r ∨ ∃ writes, l = .run r writes) → Asked codec s l (s.setPhase r req phase)
  | timeout {r req listening} : s.requests r = some req → req.question = .ping →
      req.phase = .asking → req.todo = [] → req.listening = some listening →
      (s.listeners req.topic).queue listening.receiver = [] →
      Asked codec s (.timeout r)
        (s.setPhase r { req with timedOut := some s.node.fired.length } req.gaveUp)

section Cases

variable {codec : Codec Bytes} {s s' : AskState} {r : ℕ} {req : Request} {writes : Bool}

theorem runAsking_cases (hr : s.requests r = some req) (hphase : req.phase = .asking)
    (h : s.runAsking codec r req writes = some s') : Asked codec s (.run r writes) s' := by
  rw [runAsking] at h
  split at h
  · rename_i todo htodo
    cases h
    exact .listen hr hphase htodo
  · rename_i todo htodo
    split at h
    · rename_i node hnode
      cases h
      exact .send hr hphase htodo hnode
    · cases h
      exact .fail hr (Or.inl hphase) (Or.inr rfl) (Or.inr ⟨writes, rfl⟩)
  · rename_i htodo
    split at h
    · rename_i listening hlistening
      split at h
      · rename_i event l hrecv
        obtain ⟨rest, hqueue, rfl⟩ := Listeners.recv_eq_some hrecv
        split at h
        · rename_i hanswers
          cases h
          exact .accept hr hphase htodo hlistening hqueue hanswers
        · rename_i hanswers
          cases h
          exact .ignore hr hphase htodo hlistening hqueue hanswers
      · cases h
    · cases h

theorem run_cases (hr : s.requests r = some req) (h : s.run codec r req writes = some s') :
    Asked codec s (.run r writes) s' := by
  rw [run] at h
  split at h
  · rename_i hphase
    exact runAsking_cases hr hphase h
  · rename_i answer stage hphase
    split at h
    · rename_i node stage' hsec
      cases h
      exact .close hr hphase hsec
    · rename_i node hsec
      cases h
      exact .close hr hphase hsec
    · cases h
      exact .fail hr (Or.inr ⟨answer, stage, hphase⟩) (Or.inr rfl) (Or.inr ⟨writes, rfl⟩)
  · cases h

/-- **What a step does.** -/
theorem step_cases {l : AskLabel} (h : s.step codec l = some s') : Asked codec s l s' := by
  cases l with
  | node l =>
    obtain ⟨node, hnode, rfl⟩ := Option.map_eq_some_iff.mp h
    exact .node hnode
  | ask r question peerId closes =>
    rw [step] at h
    split at h
    · rename_i hr
      cases h
      exact .ask hr
    · cases h
  | run r writes =>
    rw [step] at h
    split at h
    · rename_i req hr
      exact run_cases hr h
    · cases h
  | timeout r =>
    rw [step] at h
    split at h
    · rename_i req hr
      split at h
      · rename_i hping hasking htodo hlistening
        split at h
        · rename_i hqueue
          cases h
          exact .timeout hr hping hasking htodo hlistening hqueue
        · cases h
      · cases h
    · cases h
  | drop r =>
    rw [step] at h
    split at h
    · rename_i req hr
      split at h
      · rename_i hphase
        cases h
        exact .fail hr (Or.inl hphase) (Or.inl rfl) (Or.inl rfl)
      · rename_i answer stage hphase
        cases h
        exact .fail hr (Or.inr ⟨answer, stage, hphase⟩) (Or.inl rfl) (Or.inl rfl)
      · cases h
    · cases h

end Cases

end AskState

/-! ### What the node fires -/

namespace NodeState

variable {codec : Codec Bytes} {s s' : NodeState} {n : PeerID} {writes : Bool}

theorem fired_disconnectSection {quit : QuitPacket} {stage : Disconnecting}
    {next : Option Disconnecting}
    (h : s.disconnectSection codec n quit writes stage = some (s', next)) :
    s'.fired = s.fired := by
  rcases disconnectSection_cases h with ⟨-, -, ⟨rfl, -⟩ | ⟨peer, body, -, -, rfl⟩⟩ |
    ⟨-, ⟨-, -, rfl⟩ | ⟨peer, -, -, rfl⟩⟩ | ⟨-, -, rfl⟩ <;> rfl

theorem fired_sendPacket {p : Packet} (h : s.sendPacket codec n p writes = some s') :
    s'.fired = s.fired := by
  rcases sendPacket_cases h with rfl | ⟨peer, body, -, -, -, rfl⟩ <;> rfl

theorem fired_handlerSection {shuffle : Shuffle} {handler handler' : Handler}
    (h : s.handlerSection codec n writes shuffle handler = some (s', handler')) :
    s'.fired = s.fired ∨ ∃ p, handler = .fire p ∧ s'.fired = s.fired ++ [(n, p)] := by
  cases handler with
  | start p =>
    rw [handlerSection] at h
    split at h
    · cases h
      exact Or.inl rfl
    · cases h
  | reply response p =>
    rw [handlerSection] at h
    split at h
    · rename_i hsend
      cases h
      exact Or.inl (fired_sendPacket hsend)
    · cases h
  | fire p =>
    cases h
    exact Or.inr ⟨p, rfl, rfl⟩
  | disconnecting stage q =>
    rw [handlerSection] at h
    split at h
    · rename_i hsec
      cases h
      exact Or.inl (fired_disconnectSection hsec)
    · cases h
  | _ =>
    cases h
    exact Or.inl rfl

/-- **A step fires one event at most**, that of a packet the read task of a connection
of the peer has handled. -/
theorem fired_step {l : NodeLabel} (h : s.step codec l = some s') :
    s'.fired = s.fired ∨ ∃ t n stream p, s.tasks t = .handling n stream (.fire p) ∧
      s'.fired = s.fired ++ [(n, p)] := by
  cases step_cases h with
  | @insert n addr =>
    rw [NodeState.insertPeer]
    split
    · split <;> exact Or.inl rfl
    · exact Or.inl rfl
  | outside => exact Or.inl rfl
  | call => exact Or.inl rfl
  | disconnect _ hsec =>
    have hfired := fired_disconnectSection hsec
    exact Or.inl hfired
  | disconnectEnds => exact Or.inl rfl
  | @poll t writes shuffle u hpoll =>
    rcases pollTask_cases hpoll with ⟨n, stream, got, -, hcase⟩ | ⟨n, stream, handler, ht, hcase⟩
    · refine Or.inl ?_
      rcases hcase with ⟨b, rest, -, -, rfl⟩ | ⟨-, -, -, rfl⟩ | ⟨-, rfl⟩ | ⟨-, -, -, -, -, rfl⟩ <;> rfl
    · rcases hcase with ⟨-, rfl⟩ | ⟨u, handler', hsec, rfl⟩
      · exact Or.inl rfl
      · rcases fired_handlerSection hsec with heq | ⟨p, rfl, heq⟩
        · exact Or.inl heq
        · exact Or.inr ⟨t, n, stream, p, ht, heq⟩
  | cancel => exact Or.inl rfl
  | send => exact Or.inl rfl

end NodeState

end Tewta
