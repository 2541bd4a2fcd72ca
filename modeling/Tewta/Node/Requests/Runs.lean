import Tewta.Node.Reading
import Tewta.Node.Requests.Invariant

/-!
# Runs with one request

What it takes to drive a request: the node reads and handles a response, a lookup
listens and sends, a ping sends and listens, and a task takes the events of its
receiver one after the other.
-/

namespace Tewta

open Broadcast NodeState Transition

/-! ### The node alone -/

namespace NodeState

variable {codec : Codec Bytes} {s s' : NodeState}

theorem fired_length_le {l : NodeLabel} (h : s.step codec l = some s') :
    s.fired.length ≤ s'.fired.length := by
  rcases fired_step h with heq | ⟨t, n, stream, p, -, heq⟩
  · rw [heq]
  · rw [heq, List.length_append]
    exact Nat.le_add_right _ _

theorem fired_length_le_of_exec {labels : List NodeLabel}
    (h : exec (NodeState.step codec) s labels = some s') : s.fired.length ≤ s'.fired.length := by
  refine invariant_of_exec (I := fun u => s.fired.length ≤ u.fired.length) ?_ h le_rfl
  intro u l v hle hstep
  exact hle.trans (fired_length_le hstep)

/-- A response that is handled at once becomes an event. -/
theorem exec_handle (codec : Codec Bytes) {t : TaskId} {n : PeerID} {stream : StreamId} {p : Packet}
    (ht : s.tasks t = .handling n stream (.start p))
    (hp : ∀ pool dht shuffle, onPacket pool dht shuffle p = some (.fire p, dht)) :
    ∃ u, s.step codec (.poll t true ⟨id, fun _ => .refl _⟩) = some u ∧ u.fired = s.fired ∧
      u.step codec (.poll t true ⟨id, fun _ => .refl _⟩) =
        some ({ s with fired := s.fired ++ [(n, p)] }.setTask t (.reading n stream [])) := by
  have hstart : s.handlerSection codec n true ⟨id, fun _ => .refl _⟩ (.start p) =
      some (s, .fire p) := by
    rw [handlerSection, hp]
  have h₁ : s.pollTask codec t true ⟨id, fun _ => .refl _⟩ = _ := pollTask_of_handling ht hstart
  have ht₁ : (s.setTask t (.handling n stream (.fire p))).tasks t =
      .handling n stream (.fire p) := tasks_setTask_self _ _ _
  have h₂ : (s.setTask t (.handling n stream (.fire p))).pollTask codec t true
      ⟨id, fun _ => .refl _⟩ = _ := pollTask_of_handling ht₁ rfl
  refine ⟨_, h₁, rfl, h₂.trans ?_⟩
  simp [NodeState.setTask, ReadTask.resume]

/-- A node with one connection. -/
def connected (codec : Codec Bytes) (ourPeerId n : PeerID) : NodeState :=
  (NodeState.init ourPeerId).insertPeer codec n "local-1"

theorem connected_eq (codec : Codec Bytes) (ourPeerId n : PeerID) : connected codec ourPeerId n =
    { (NodeState.init ourPeerId).setTask 0 (.reading n 0 []) with
      pool := (ConnectionPool.new ourPeerId).insert n ⟨"local-1", 0, none, 0⟩
      next := 1 } := by
  have hnew : (NodeState.init ourPeerId).pool.connections[n]? = none := by
    simp [NodeState.init, ConnectionPool.new]
  exact insertPeer_of_none codec "local-1" hnew

theorem connected_spec (codec : Codec Bytes) (ourPeerId n : PeerID) :
    (connected codec ourPeerId n).tasks 0 = .reading n 0 [] ∧
      (connected codec ourPeerId n).inbound 0 = [] ∧
      (connected codec ourPeerId n).closed 0 = false ∧
      (connected codec ourPeerId n).fired = [] := by
  rw [connected_eq]
  exact ⟨rfl, rfl, rfl, rfl⟩

theorem getElem?_connected (codec : Codec Bytes) (ourPeerId n : PeerID) :
    (connected codec ourPeerId n).pool.connections[n]? = some ⟨"local-1", 0, none, 0⟩ := by
  rw [connected_eq]
  exact (ConnectionPool.getElem?_insert _ _ _ _).trans (if_pos rfl)

end NodeState

namespace AskState

variable {codec : Codec Bytes} {s s' : AskState}

theorem exec_map_node {labels : List NodeLabel} {node : NodeState}
    (h : exec (NodeState.step codec) s.node labels = some node)
    (hfired : node.fired.length = s.node.fired.length) :
    exec (step codec) s (labels.map .node) = some { s with node } := by
  induction labels generalizing s with
  | nil =>
    cases h
    rfl
  | cons l labels ih =>
    obtain ⟨u, hu, hrun⟩ := exec_cons_eq_some.mp h
    have hle' := NodeState.fired_length_le_of_exec hrun
    have heq : u.fired = s.node.fired := by
      rcases NodeState.fired_step hu with heq | ⟨t, n, stream, p, -, heq⟩
      · exact heq
      · rw [heq, List.length_append, List.length_singleton] at hle'
        omega
    have hstep : s.step codec (.node l) = some { s with node := u } := by
      rw [step, hu, Option.map_some, afterNode_of_eq heq]
    refine exec_cons_eq_some.mpr ⟨_, hstep, ih hrun ?_⟩
    show node.fired.length = u.fired.length
    rw [hfired, heq]

/-- A response arrives, is read and handled, and its event is sent. -/
def respond (t : TaskId) (stream : StreamId) (body : Bytes) : List AskLabel :=
  (receive t stream body).map .node ++
    [.node (.poll t true ⟨id, Shuffle.perm_id⟩), .node (.poll t true ⟨id, Shuffle.perm_id⟩)]

/-- A packet of a peer has been read and handled, and was fired. -/
def afterRespond (s : AskState) (fired : List (PeerID × Packet)) (n : PeerID) (p : Packet) :
    AskState :=
  { s with node := { s.node with fired := fired ++ [(n, p)] } }.deliver ⟨fired.length, n, p⟩

theorem queue_afterRespond {fired : List (PeerID × Packet)} {n : PeerID} {p : Packet}
    {topic : Topic} {rc : ℕ} (htopic : (topic.idOf p).isSome = true)
    (hopen : (s.listeners topic).isOpen rc = true) :
    ((s.afterRespond fired n p).listeners topic).queue rc =
      (s.listeners topic).queue rc ++ [⟨fired.length, n, p⟩] := by
  show (if (topic.idOf p).isSome then (s.listeners topic).event _ else s.listeners topic).queue rc = _
  rw [if_pos htopic, Listeners.queue_event, if_pos hopen]

/-- **A response becomes an event**, and nothing else changes. -/
theorem exec_respond {t : TaskId} {n : PeerID} {stream : StreamId} {p : Packet} {body : Bytes}
    {fired : List (PeerID × Packet)} (hfired : s.node.fired = fired)
    (hbody : body.length < maxPacketSize) (hdec : codec.fromRawBytes body = .ok p)
    (ht : s.node.tasks t = .reading n stream []) (hin : s.node.inbound stream = [])
    (hopen : s.node.closed stream = false)
    (hp : ∀ pool dht shuffle, onPacket pool dht shuffle p = some (.fire p, dht)) :
    exec (step codec) s (respond t stream body) = some (s.afterRespond fired n p) := by
  subst hfired
  have hread := exec_map_node (exec_receive hbody hdec ht hin hopen) rfl
  obtain ⟨u, h₁, hfired, h₂⟩ := exec_handle codec
    (tasks_setTask_self s.node t (.handling n stream (.start p))) hp
  have hself : (({ s.node.setTask t (.handling n stream (.start p)) with
      fired := s.node.fired ++ [(n, p)] } : NodeState).setTask t (.reading n stream [])) =
        { s.node with fired := s.node.fired ++ [(n, p)] } := by
    simp only [NodeState.setTask, Function.update_idem]
    rw [← ht, Function.update_eq_self]
  have hstep₁ : step codec { s with node := s.node.setTask t (.handling n stream (.start p)) }
      (.node (.poll t true ⟨id, fun _ => .refl _⟩)) = some { s with node := u } :=
    (congrArg (Option.map _) h₁).trans (congrArg some (afterNode_of_eq hfired))
  have hstep₂ : step codec { s with node := u } (.node (.poll t true ⟨id, fun _ => .refl _⟩)) =
      some ({ s with node := { s.node with fired := s.node.fired ++ [(n, p)] } }.deliver
        ⟨u.fired.length, n, p⟩) := by
    refine (congrArg (Option.map _) (h₂.trans (congrArg some hself))).trans ?_
    refine congrArg some (afterNode_of_append ?_)
    show s.node.fired ++ [(n, p)] = u.fired ++ [(n, p)]
    rw [hfired]
    rfl
  rw [respond, exec_append_of hread]
  refine exec_cons_eq_some.mpr ⟨_, hstep₁, ?_⟩
  rw [exec_singleton, hstep₂, hfired]
  rfl

section Steps

variable {r : ℕ} {req : Request} {todo : List AskAction} {writes : Bool}

theorem step_listen (codec : Codec Bytes) (writes : Bool) (hr : s.requests r = some req)
    (hphase : req.phase = .asking) (htodo : req.todo = .listen :: todo) :
    s.step codec (.run r writes) =
      some ((s.setListeners req.topic (s.listeners req.topic).listen).setRequest r
        { req with
          todo, listening := some ⟨(s.listeners req.topic).next, s.node.fired.length⟩ }) := by
  simp only [step, hr, run, hphase, runAsking, htodo]

theorem step_send {peer : PeerInfo} {body : Bytes} (hr : s.requests r = some req)
    (hphase : req.phase = .asking) (htodo : req.todo = .send :: todo)
    (hn : s.node.pool.connections[req.peerId]? = some peer)
    (hbody : codec.rawBytes (req.question.packet req.id) = .ok body) :
    s.step codec (.run r true) =
      some ({ s with
          node := s.node.wrote peer.writeStream (req.question.packet req.id) }.setRequest r
        { req with todo, sent := some ⟨s.node.fired.length, some peer.writeStream⟩ }) := by
  have hsend : s.node.sendPacket codec req.peerId (req.question.packet req.id) true =
      some (s.node.wrote peer.writeStream (req.question.packet req.id)) := by
    have hunchecked : s.node.sendPacketUnchecked codec req.peerId (req.question.packet req.id) true =
        some (s.node.wrote peer.writeStream (req.question.packet req.id)) := by
      simp only [sendPacketUnchecked, hbody, hn, if_true]
    rw [← hunchecked]
    cases req.question <;> rfl
  have hstream : s.streamOf codec req = some peer.writeStream := by
    simp only [streamOf, hbody, hn, Option.map_some]
  simp only [step, hr, run, hphase, runAsking, htodo, hsend, hstream]

variable {x : Listening} {event : PacketEvent} {rest : List PacketEvent}

theorem step_accept (codec : Codec Bytes) (writes : Bool) (hr : s.requests r = some req)
    (hphase : req.phase = .asking) (htodo : req.todo = []) (hx : req.listening = some x)
    (hqueue : (s.listeners req.topic).queue x.receiver = event :: rest)
    (hanswers : req.Answers event) :
    s.step codec (.run r writes) = some ((s.setListeners req.topic { s.listeners req.topic with
      queue := Function.update (s.listeners req.topic).queue x.receiver rest }).setPhase r req
        (req.answered event)) := by
  have hrecv : (s.listeners req.topic).recv x.receiver = some (event, { s.listeners req.topic with
      queue := Function.update (s.listeners req.topic).queue x.receiver rest }) := by
    simp only [Listeners.recv, hqueue]
  simp only [step, hr, run, hphase, runAsking, htodo, hx, hrecv, if_pos hanswers]

theorem step_timeout (codec : Codec Bytes) (hr : s.requests r = some req)
    (hping : req.question = .ping) (hphase : req.phase = .asking) (htodo : req.todo = [])
    (hx : req.listening = some x) (hqueue : (s.listeners req.topic).queue x.receiver = []) :
    s.step codec (.timeout r) =
      some (s.setPhase r { req with timedOut := some s.node.fired.length } req.gaveUp) := by
  simp only [step, hr, hping, hphase, htodo, hx, hqueue]

theorem step_close {answer : Option PacketEvent} {stage stage' : Disconnecting} {node : NodeState}
    (hr : s.requests r = some req) (hphase : req.phase = .closing answer stage)
    (hsec : s.node.disconnectSection codec req.peerId (closingQuit answer) writes stage =
      some (node, some stage')) :
    s.step codec (.run r writes) =
      some ({ s with node }.setPhase r req (.closing answer stage')) := by
  simp only [step, hr, run, hphase, hsec]

/-- **A task that disconnects** sends its Quit and removes the peer. -/
theorem exec_removing {answer : Option PacketEvent} {peer : PeerInfo} {body : Bytes}
    (hr : s.requests r = some req) (hphase : req.phase = .closing answer .quitting)
    (hn : s.node.pool.connections[req.peerId]? = some peer)
    (hbody : codec.rawBytes (.quit (closingQuit answer)) = .ok body) :
    ∃ s', exec (step codec) s [.run r true, .run r true] = some s' ∧
      s'.requests = Function.update s.requests r
        (some { req with phase := .closing answer .announcing }) ∧
      s'.node = (s.node.wrote peer.writeStream (.quit (closingQuit answer))).removePeer
        req.peerId peer := by
  let node := s.node.wrote peer.writeStream (.quit (closingQuit answer))
  have hquit : s.node.disconnectSection codec req.peerId (closingQuit answer) true .quitting =
      some (node, some .removing) := by
    simp only [disconnectSection, sendPacketUnchecked, hbody, hn, if_true]
    rfl
  have hremove : node.disconnectSection codec req.peerId (closingQuit answer) true .removing =
      some (node.removePeer req.peerId peer, some .announcing) := by
    have hn' : node.pool.connections[req.peerId]? = some peer := hn
    simp only [disconnectSection, hn']
  have h₁ := step_close hr hphase hquit
  let u := { s with node }.setPhase r req (.closing answer .removing)
  have hrequests : u.requests = _ := requests_setPhase
  have hr' : u.requests r = some { req with phase := .closing answer .removing } := by
    rw [hrequests]
    exact Function.update_self _ _ _
  have hnode : u.node = node := node_setPhase
  have h₂ := step_close hr' rfl (by rw [hnode]; exact hremove)
  refine ⟨_, exec_cons_eq_some.mpr ⟨u, h₁, (exec_singleton _ _).trans h₂⟩, ?_, node_setPhase⟩
  rw [requests_setPhase, hrequests, Function.update_idem]

end Steps

theorem step_insert (codec : Codec Bytes) (ourPeerId n : PeerID) :
    (init ourPeerId).step codec (.node (.insert n "local-1")) =
      some { init ourPeerId with node := connected codec ourPeerId n } :=
  congrArg some (afterNode_of_eq (by
    show (connected codec ourPeerId n).fired = []
    rw [connected_eq]
    rfl))

/-- A lookup that is asked, listens and sends. -/
def lookUp (r : ℕ) (key : KeyID) (n : PeerID) (closes : Bool) : List AskLabel :=
  [.ask r (.findDhtValue key) n closes, .run r true, .run r true]

/-- The request of a lookup that waits. -/
def lookedUp (s : AskState) (key : KeyID) (n : PeerID) (closes : Bool) (stream : StreamId) :
    Request where
  question := .findDhtValue key
  peerId := n
  closes := closes
  ticket := s.counters .findDhtValueResp
  todo := []
  listening := some ⟨(s.listeners .findDhtValueResp).next, s.node.fired.length⟩
  sent := some ⟨s.node.fired.length, some stream⟩
  timedOut := none
  phase := .asking

/-- A lookup has come to wait. -/
def afterLookUp (s : AskState) (r : ℕ) (key : KeyID) (n : PeerID) (closes : Bool)
    (stream : StreamId) : AskState where
  node := s.node.wrote stream ((Question.findDhtValue key).packet
    (UInt32.ofNat (s.counters .findDhtValueResp)))
  counters := Function.update s.counters .findDhtValueResp (s.counters .findDhtValueResp + 1)
  listeners := Function.update s.listeners .findDhtValueResp (s.listeners .findDhtValueResp).listen
  requests := Function.update s.requests r (some (s.lookedUp key n closes stream))

theorem exec_lookUp {r : ℕ} {key : KeyID} {n : PeerID} {closes : Bool} {peer : PeerInfo}
    {body : Bytes} (hnone : s.requests r = none) (hn : s.node.pool.connections[n]? = some peer)
    (hbody : codec.rawBytes ((Question.findDhtValue key).packet
      (UInt32.ofNat (s.counters .findDhtValueResp))) = .ok body) :
    exec (step codec) s (lookUp r key n closes) =
      some (s.afterLookUp r key n closes peer.writeStream) := by
  let req : Request := { s.lookedUp key n closes peer.writeStream with
    todo := [.listen, .send], listening := none, sent := none }
  let s₁ : AskState := { s with
    counters := Function.update s.counters .findDhtValueResp (s.counters .findDhtValueResp + 1),
    requests := Function.update s.requests r (some req) }
  have h₁ : s.step codec (.ask r (.findDhtValue key) n closes) = some s₁ := by
    rw [step, hnone]
    rfl
  have hreq₁ : s₁.requests r = some req := Function.update_self _ _ _
  have h₂ := step_listen codec true hreq₁ rfl rfl
  refine exec_cons_eq_some.mpr ⟨s₁, h₁, exec_cons_eq_some.mpr ⟨_, h₂, ?_⟩⟩
  rw [exec_singleton]
  refine (step_send (Function.update_self _ _ _) rfl rfl hn hbody).trans ?_
  simp only [s₁, setRequest, setListeners, Function.update_idem]
  rfl

end AskState

end Tewta
