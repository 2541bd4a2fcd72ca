import Tewta.Hash
import Tewta.Node.Requests.Runs

/-!
# Which response belongs to which request

Responses are sent to every listener of their topic and matched by peer and id, and
ids are of thirty-two bits.  Three things are shown of any run.  An answer was read
from a connection of the peer that was asked, and has the id of the request.  As long
as a counter hands out fewer than `2 ^ 32` ids while a request is pending, no two
requests accept the same event.  And once a lookup or a discovery has sent its request,
every response to it that is handled waits at its receiver: it has listened before.
-/

namespace Tewta

open Broadcast Framing NodeState Transition

/-! ### Where events come from -/

/-- The packet that a call of `on_packet` handles. -/
def Handler.packet? : Handler → Option Packet
  | .start p => some p
  | .listPeers p => some (.findDhtValue p)
  | .reply _ p => some p
  | .fire p => some p
  | .disconnecting _ q => some (.quit q)
  | .finished => none

namespace NodeState

variable {codec : Codec Bytes} {s s' : NodeState} {n : PeerID} {R : PeerID → Packet → Prop}

/-- A read task of a peer has read a packet to its end. -/
def Decodes (codec : Codec Bytes) (s : NodeState) (n : PeerID) (p : Packet) : Prop :=
  ∃ t stream got body rest, s.tasks t = .reading n stream got ∧
    parse maxPacketSize got = .complete body rest ∧ codec.fromRawBytes body = .ok p

/-- Everything that is handled, and every event, is in `R`. -/
structure HeardFrom (R : PeerID → Packet → Prop) (s : NodeState) : Prop where
  tasks : ∀ t n stream handler p, s.tasks t = .handling n stream handler →
    handler.packet? = some p → R n p
  fired : ∀ n p, (n, p) ∈ s.fired → R n p

theorem packet?_notifyIf {short : Bool} {p p' : Packet} (h : (notifyIf short p).packet? = some p') :
    p' = p := by
  cases short with
  | false => cases h
  | true => exact (Option.some.inj h).symm

/-- `on_packet` goes on with the packet it was given. -/
theorem packet?_onPacket {pool : ConnectionPool} {dht : DhtStore} {shuffle : Shuffle}
    {p p' : Packet} {r : Handler × DhtStore} (h : onPacket pool dht shuffle p = some r)
    (hp : r.1.packet? = some p') : p' = p := by
  cases p with
  | discoverPeers q =>
    rw [onPacket] at h
    split at h
    · cases h
      exact (Option.some.inj hp).symm
    · cases h
      cases hp
  | findDhtValue q =>
    rw [onPacket] at h
    split at h
    · cases h
      exact (Option.some.inj hp).symm
    · cases h
      exact (Option.some.inj hp).symm
  | discoverPeersResp q => cases h; exact packet?_notifyIf hp
  | findDhtValueResp q => cases h; exact packet?_notifyIf hp
  | findPeerResp q => cases h; exact packet?_notifyIf hp
  | protocolVersion q => cases h
  | initRsa q => cases h
  | initAes q => cases h
  | ehlo q => cases h
  | _ => cases h; exact (Option.some.inj hp).symm

theorem packet?_handlerSection {writes : Bool} {shuffle : Shuffle} {handler handler' : Handler}
    {p : Packet} (h : s.handlerSection codec n writes shuffle handler = some (s', handler'))
    (hp : handler'.packet? = some p) : handler.packet? = some p := by
  cases handler with
  | start p' =>
    rw [handlerSection] at h
    split at h
    · rename_i hstart
      cases h
      rw [packet?_onPacket hstart hp]
      rfl
    · cases h
  | reply response p' =>
    rw [handlerSection] at h
    split at h
    · cases h
      exact hp
    · cases h
  | disconnecting stage q =>
    rw [handlerSection] at h
    split at h
    · rename_i next _
      cases h
      cases next <;> exact hp
    · cases h
  | listPeers p' => cases h; exact hp
  | fire p' => cases h; cases hp
  | finished => cases h; cases hp

namespace HeardFrom

theorem init (ourPeerId : PeerID) : HeardFrom R (NodeState.init ourPeerId) where
  tasks t n stream handler p h := by cases h
  fired n p h := by cases h

theorem congr (h : HeardFrom R s)
    (htasks : ∀ t n stream handler, s'.tasks t = .handling n stream handler →
      s.tasks t = .handling n stream handler) (hfired : s'.fired = s.fired) : HeardFrom R s' := by
  refine ⟨fun t n stream handler p ht => h.tasks t n stream handler p (htasks t n stream handler ht),
    fun n p hmem => ?_⟩
  rw [hfired] at hmem
  exact h.fired n p hmem

theorem setTask (h : HeardFrom R s) {t : TaskId} {task : ReadTask}
    (hnew : ∀ n stream handler p, task = .handling n stream handler →
      handler.packet? = some p → R n p) : HeardFrom R (s.setTask t task) := by
  refine ⟨fun t' n stream handler p ht' => ?_, h.fired⟩
  rcases update_eq_cases ht' with ⟨-, heq⟩ | ⟨-, ht'⟩
  · exact hnew n stream handler p heq
  · exact h.tasks t' n stream handler p ht'

theorem pollTask (h : HeardFrom R s) {t : TaskId} {writes : Bool} {shuffle : Shuffle}
    (hread : ∀ n p, s.Decodes codec n p → R n p)
    (hpoll : s.pollTask codec t writes shuffle = some s') : HeardFrom R s' := by
  have hresume : ∀ {n n' : PeerID} {stream stream' : StreamId} {handler handler' : Handler},
      ReadTask.resume n stream handler = .handling n' stream' handler' →
        n' = n ∧ handler' = handler := by
    intro n n' stream stream' handler handler' heq
    cases handler <;> cases heq <;> exact ⟨rfl, rfl⟩
  rcases pollTask_cases hpoll with ⟨n, stream, got, ht, hcase⟩ | ⟨n, stream, handler, ht, hcase⟩
  · rcases hcase with ⟨b, rest, -, -, rfl⟩ | ⟨-, -, -, rfl⟩ | ⟨-, rfl⟩ |
      ⟨body, rest, handler, hparse, hhandler, rfl⟩
    · have hread' : HeardFrom R { s with inbound := Function.update s.inbound stream rest } :=
        ⟨h.tasks, h.fired⟩
      exact hread'.setTask fun _ _ _ _ heq => by cases heq
    · exact h.setTask fun _ _ _ _ heq => by cases heq
    · exact h.setTask fun _ _ _ _ heq => by cases heq
    · refine h.setTask fun n' stream' handler' p heq hp => ?_
      obtain ⟨rfl, rfl⟩ := hresume heq
      rcases hhandler with ⟨e, -, rfl⟩ | ⟨p', hbody, rfl⟩
      · cases hp
      · cases hp
        exact hread _ _ ⟨t, stream, got, body, rest, ht, hparse, hbody⟩
  · rcases hcase with ⟨-, rfl⟩ | ⟨u, handler', hsec, rfl⟩
    · exact h.setTask fun _ _ _ _ heq => by cases heq
    · have hu : HeardFrom R u := by
        refine ⟨fun t' n' stream' handler'' p ht' => ?_, fun n' p hmem => ?_⟩
        · rw [(tasks_handlerSection hsec).1] at ht'
          exact h.tasks t' n' stream' handler'' p ht'
        · rcases fired_handlerSection hsec with heq | ⟨p', rfl, heq⟩
          · rw [heq] at hmem
            exact h.fired n' p hmem
          · rw [heq, List.mem_append, List.mem_singleton, Prod.mk.injEq] at hmem
            rcases hmem with hmem | ⟨rfl, rfl⟩
            · exact h.fired n' p hmem
            · exact h.tasks t _ stream _ _ ht rfl
      refine hu.setTask fun n' stream' handler'' p heq hp => ?_
      obtain ⟨rfl, rfl⟩ := hresume heq
      exact h.tasks t _ stream handler p ht (packet?_handlerSection hsec hp)

theorem disconnectSection (h : HeardFrom R s) {quit : QuitPacket} {writes : Bool}
    {stage : Disconnecting} {next : Option Disconnecting}
    (hsec : s.disconnectSection codec n quit writes stage = some (s', next)) : HeardFrom R s' := by
  rcases disconnectSection_cases hsec with ⟨-, -, ⟨rfl, -⟩ | ⟨peer, body, -, -, rfl⟩⟩ |
    ⟨-, ⟨-, -, rfl⟩ | ⟨peer, -, -, rfl⟩⟩ | ⟨-, -, rfl⟩ <;> exact ⟨h.tasks, h.fired⟩

theorem sendPacket (h : HeardFrom R s) {p : Packet} {writes : Bool}
    (hsend : s.sendPacket codec n p writes = some s') : HeardFrom R s' := by
  rcases sendPacket_cases hsend with rfl | ⟨peer, body, -, -, -, rfl⟩
  · exact h
  · exact ⟨h.tasks, h.fired⟩

theorem step (h : HeardFrom R s) {l : NodeLabel}
    (hread : ∀ n p, s.Decodes codec n p → R n p) (hstep : s.step codec l = some s') :
    HeardFrom R s' := by
  cases step_cases hstep with
  | @insert n addr =>
    have hfired : (s.insertPeer codec n addr).fired = s.fired := by
      rw [NodeState.insertPeer]
      split
      · split <;> rfl
      · rfl
    refine h.congr (fun t n' stream handler ht => ?_) hfired
    by_cases heq : t = s.next
    · subst heq
      rw [NodeState.insertPeer] at ht
      split at ht
      · split at ht <;> exact ht
      · have htask := (Function.update_self _ _ _).symm.trans ht
        cases htask
    · rw [(insertPeer_of_ne codec n addr heq).1] at ht
      exact ht
  | outside => exact ⟨h.tasks, h.fired⟩
  | call => exact ⟨h.tasks, h.fired⟩
  | disconnect _ hsec =>
    have hu := h.disconnectSection hsec
    exact ⟨hu.tasks, hu.fired⟩
  | disconnectEnds => exact ⟨h.tasks, h.fired⟩
  | poll hpoll => exact h.pollTask hread hpoll
  | cancel => exact h.setTask fun _ _ _ _ heq => by cases heq
  | send => exact ⟨h.tasks, h.fired⟩

end HeardFrom

end NodeState

namespace AskState

variable {codec : Codec Bytes} {s s' : AskState}

end AskState

/-! ### Two requests and one event -/

theorem ofNat_ne_ofNat {a b : ℕ} (hlt : a < b) (hnear : b < a + 2 ^ 32) :
    UInt32.ofNat a ≠ UInt32.ofNat b := by
  intro heq
  have hmod := congrArg UInt32.toNat heq
  rw [UInt32.toNat_ofNat', UInt32.toNat_ofNat'] at hmod
  omega

namespace AskState

variable {codec : Codec Bytes} {s s' : AskState}

/-- While a request is pending, its counter hands out fewer than `2 ^ 32` ids. -/
def Fresh (s : AskState) : AskLabel → Prop
  | .ask _ question _ _ => ∀ r req, s.requests r = some req → req.phase = .asking →
      req.topic = question.topic → s.counters question.topic < req.ticket + 2 ^ 32
  | _ => True

/-- An event waits at the receiver of a pending request, or was accepted. -/
def Holds (s : AskState) (req : Request) (event : PacketEvent) : Prop :=
  (req.phase = .asking ∧ ∃ x, req.listening = some x ∧
      event ∈ (s.listeners req.topic).queue x.receiver) ∨
    req.phase.answer? = some event

/-- Two requests of one topic that are pending, or hold one event, have different ids. -/
structure Exclusive (s : AskState) : Prop where
  ids : ∀ r r' req req', r ≠ r' → s.requests r = some req → s.requests r' = some req' →
    req.phase = .asking → req'.phase = .asking → req.topic = req'.topic → req.id ≠ req'.id
  events : ∀ r r' req req' event, r ≠ r' → s.requests r = some req → s.requests r' = some req' →
    s.Holds req event → s.Holds req' event → req.topic = req'.topic → req.id ≠ req'.id

/-- Requests hold no more than they did, and none is new. -/
def Shrinks (s s' : AskState) : Prop :=
  ∀ r req', s'.requests r = some req' → ∃ req, s.requests r = some req ∧
    req'.topic = req.topic ∧ req'.id = req.id ∧ (req'.phase = .asking → req.phase = .asking) ∧
    ∀ event, s'.Holds req' event → s.Holds req event

theorem Exclusive.shrink (h : Exclusive s) (hshrinks : Shrinks s s') : Exclusive s' := by
  constructor
  · intro r r' req req' hr hreq hreq' hasking hasking' htopic
    obtain ⟨old, hold, ht, hid, hphase, -⟩ := hshrinks r req hreq
    obtain ⟨old', hold', ht', hid', hphase', -⟩ := hshrinks r' req' hreq'
    rw [hid, hid']
    exact h.ids r r' old old' hr hold hold' (hphase hasking) (hphase' hasking')
      (ht.symm.trans (htopic.trans ht'))
  · intro r r' req req' event hr hreq hreq' hholds hholds' htopic
    obtain ⟨old, hold, ht, hid, -, hevents⟩ := hshrinks r req hreq
    obtain ⟨old', hold', ht', hid', -, hevents'⟩ := hshrinks r' req' hreq'
    rw [hid, hid']
    exact h.events r r' old old' event hr hold hold' (hevents event hholds)
      (hevents' event hholds') (ht.symm.trans (htopic.trans ht'))

theorem Shrinks.of_update {r : ℕ} {req req' : Request} (hr : s.requests r = some req)
    (hrequests : s'.requests = Function.update s.requests r (some req'))
    (htopic : req'.topic = req.topic) (hid : req'.id = req.id)
    (hphase : req'.phase = .asking → req.phase = .asking)
    (hqueue : ∀ topic rc, ∀ e ∈ (s'.listeners topic).queue rc, e ∈ (s.listeners topic).queue rc)
    (hholds : ∀ event, s'.Holds req' event → s.Holds req event) : Shrinks s s' := by
  intro r₁ req₁ hreq₁
  rw [hrequests] at hreq₁
  rcases update_eq_cases hreq₁ with ⟨rfl, heq⟩ | ⟨-, hreq₁⟩
  · obtain rfl := Option.some.inj heq
    exact ⟨req, hr, htopic, hid, hphase, hholds⟩
  · refine ⟨req₁, hreq₁, rfl, rfl, id, fun event hevent => ?_⟩
    rcases hevent with ⟨hasking, x, hx, hmem⟩ | hanswer
    · exact Or.inl ⟨hasking, x, hx, hqueue _ _ _ hmem⟩
    · exact Or.inr hanswer

theorem Shrinks.setPhase {r : ℕ} {req : Request} {phase : Phase} {timedOut : Option ℕ}
    (hr : s.requests r = some req) (hpop : AskInv.Popped s s' req) (hphase : phase ≠ .asking)
    (hanswer : ∀ e, phase.answer? = some e → s.Holds req e) :
    Shrinks s (s'.setPhase r { req with timedOut } phase) := by
  have hrequests : (s'.setPhase r { req with timedOut } phase).requests =
      Function.update s.requests r (some { req with phase, timedOut }) :=
    requests_setPhase.trans (by rw [hpop.requests])
  refine .of_update hr hrequests rfl rfl (fun hasking => absurd hasking hphase)
    (fun topic rc e he => ?_) fun event hevent => ?_
  · rw [queue_setPhase] at he
    exact hpop.subset topic rc e he
  · rcases hevent with ⟨hasking, -⟩ | hevent
    · exact absurd hasking hphase
    · exact hanswer event hevent

theorem Exclusive.ask (inv : AskInv s) (h : Exclusive s) {r : ℕ} {question : Question}
    {peerId : PeerID} {closes : Bool} (hnone : s.requests r = none)
    (hfresh : s.Fresh (.ask r question peerId closes))
    (hstep : s.step codec (.ask r question peerId closes) = some s') : Exclusive s' := by
  simp only [step, hnone] at hstep
  cases hstep
  -- the new request holds nothing, and its id is none of a pending one
  have hid : ∀ r' req', s.requests r' = some req' → req'.phase = .asking →
      req'.topic = question.topic → req'.id ≠ UInt32.ofNat (s.counters question.topic) := by
    intro r' req' hreq' hasking htopic
    have hlt := (inv.sound r' req' hreq').ticket
    rw [htopic] at hlt
    exact ofNat_ne_ofNat hlt (hfresh r' req' hreq' hasking htopic)
  constructor
  · intro r₁ r₂ req₁ req₂ hr hreq₁ hreq₂ hasking₁ hasking₂ htopic
    rcases update_eq_cases hreq₁ with ⟨hr₁, heq₁⟩ | ⟨-, hold₁⟩
    · obtain rfl := Option.some.inj heq₁
      rcases update_eq_cases hreq₂ with ⟨hr₂, -⟩ | ⟨-, hold₂⟩
      · exact absurd (hr₁.trans hr₂.symm) hr
      · exact (hid r₂ req₂ hold₂ hasking₂ htopic.symm).symm
    · rcases update_eq_cases hreq₂ with ⟨-, heq₂⟩ | ⟨-, hold₂⟩
      · obtain rfl := Option.some.inj heq₂
        exact hid r₁ req₁ hold₁ hasking₁ htopic
      · exact h.ids r₁ r₂ req₁ req₂ hr hold₁ hold₂ hasking₁ hasking₂ htopic
  · intro r₁ r₂ req₁ req₂ event hr hreq₁ hreq₂ hholds₁ hholds₂ htopic
    rcases update_eq_cases hreq₁ with ⟨-, heq₁⟩ | ⟨-, hold₁⟩
    · obtain rfl := Option.some.inj heq₁
      rcases hholds₁ with ⟨-, x, hx, -⟩ | hanswer
      · cases hx
      · cases hanswer
    · rcases update_eq_cases hreq₂ with ⟨-, heq₂⟩ | ⟨-, hold₂⟩
      · obtain rfl := Option.some.inj heq₂
        rcases hholds₂ with ⟨-, x, hx, -⟩ | hanswer
        · cases hx
        · cases hanswer
      · exact h.events r₁ r₂ req₁ req₂ event hr hold₁ hold₂ hholds₁ hholds₂ htopic

theorem lt_of_holds (inv : AskInv s) {r : ℕ} {req : Request} {event : PacketEvent}
    (hr : s.requests r = some req) (h : s.Holds req event) :
    event.number < s.node.fired.length := by
  have hsound := inv.sound r req hr
  rcases h with ⟨-, x, hx, hmem⟩ | hanswer
  · exact (List.getElem?_eq_some_iff.mp (hsound.queued x hx event hmem).1).1
  · exact (List.getElem?_eq_some_iff.mp (hsound.answer event hanswer).2).1

/-- The node takes a step: what a request holds it held before, or it is pending and
the event is new. -/
theorem holds_afterNode {node : NodeState} {req : Request} {event : PacketEvent}
    (h : (s.afterNode node).Holds req event) :
    s.Holds req event ∨ req.phase = .asking ∧ event.number = s.node.fired.length := by
  rw [afterNode] at h
  split at h
  · rename_i n p _
    rcases h with ⟨hasking, x, hx, hmem⟩ | hanswer
    · have hmem' : event ∈ (if (req.topic.idOf p).isSome then
          (s.listeners req.topic).event ⟨s.node.fired.length, n, p⟩
          else s.listeners req.topic).queue x.receiver := hmem
      split at hmem'
      · rw [Listeners.queue_event] at hmem'
        split at hmem'
        · rw [List.mem_append, List.mem_singleton] at hmem'
          rcases hmem' with hmem' | rfl
          · exact Or.inl (Or.inl ⟨hasking, x, hx, hmem'⟩)
          · exact Or.inr ⟨hasking, rfl⟩
        · exact Or.inl (Or.inl ⟨hasking, x, hx, hmem'⟩)
      · exact Or.inl (Or.inl ⟨hasking, x, hx, hmem'⟩)
    · exact Or.inl (Or.inr hanswer)
  · exact Or.inl h

theorem Exclusive.afterNode (inv : AskInv s) (h : Exclusive s) (node : NodeState) :
    Exclusive (s.afterNode node) := by
  constructor
  · intro r r' req req' hr hreq hreq'
    rw [requests_afterNode] at hreq hreq'
    exact h.ids r r' req req' hr hreq hreq'
  · intro r r' req req' event hr hreq hreq' hholds hholds' htopic
    rw [requests_afterNode] at hreq hreq'
    rcases holds_afterNode hholds with hold | ⟨hasking, hnew⟩
    · rcases holds_afterNode hholds' with hold' | ⟨-, hnew'⟩
      · exact h.events r r' req req' event hr hreq hreq' hold hold' htopic
      · have hlt := lt_of_holds inv hreq hold
        omega
    · rcases holds_afterNode hholds' with hold' | ⟨hasking', -⟩
      · have hlt := lt_of_holds inv hreq' hold'
        omega
      · exact h.ids r r' req req' hr hreq hreq' hasking hasking' htopic

/-- **Every step keeps the requests apart**, as long as the ids are fresh. -/
theorem Exclusive.step (inv : AskInv s) (h : Exclusive s) {l : AskLabel} (hfresh : s.Fresh l)
    (hstep : s.step codec l = some s') : Exclusive s' := by
  cases step_cases hstep with
  | node => exact h.afterNode inv _
  | ask hnone => exact h.ask inv hnone hfresh hstep
  | @listen r req todo writes hr _ _ =>
    have hself : Function.update s.listeners req.topic (s.listeners req.topic).listen req.topic =
        (s.listeners req.topic).listen := Function.update_self _ _ _
    have hempty : (s.listeners req.topic).listen.queue (s.listeners req.topic).next = [] :=
      Function.update_self _ _ _
    refine h.shrink (.of_update hr rfl rfl rfl id (fun topic rc e he => ?_) fun event hevent => ?_)
    · by_cases heq : topic = req.topic
      · subst heq
        have he' : e ∈ (s.listeners req.topic).listen.queue rc :=
          (congrArg (fun l => e ∈ Listeners.queue l rc) hself).mp he
        by_cases hrc : rc = (s.listeners req.topic).next
        · subst hrc
          rw [hempty] at he'
          cases he'
        · exact (congrArg (e ∈ ·) (Function.update_of_ne hrc _ _)).mp he'
      · exact (congrArg (fun l => e ∈ Listeners.queue l rc) (Function.update_of_ne heq _ _)).mp he
    · rcases hevent with ⟨-, x, hx, hmem⟩ | hanswer
      · cases hx
        have hmem' : event ∈ (s.listeners req.topic).listen.queue (s.listeners req.topic).next :=
          (congrArg (fun l => event ∈ Listeners.queue l _) hself).mp hmem
        rw [hempty] at hmem'
        cases hmem'
      · exact Or.inr hanswer
  | send hr =>
    exact h.shrink (.of_update hr rfl rfl rfl id (fun _ _ _ he => he) fun _ hevent => hevent)
  | @ignore r req x event rest writes hr _ _ hx hqueue _ =>
    have hpop := AskInv.Popped.recv hx hqueue
    refine h.shrink (.of_update hr (Function.update_eq_self_iff.mpr hr.symm).symm rfl rfl id
      hpop.subset fun e he => ?_)
    rcases he with ⟨hasking, x', hx', hmem⟩ | hanswer
    · exact Or.inl ⟨hasking, x', hx', hpop.subset _ _ e hmem⟩
    · exact Or.inr hanswer
  | @accept r req x event rest writes hr hasking _ hx hqueue _ =>
    have hmem : event ∈ (s.listeners req.topic).queue x.receiver := by
      rw [hqueue]
      exact List.mem_cons_self
    refine h.shrink (.setPhase hr (.recv hx hqueue) (req.answered_ne_asking event)
      fun e he => ?_)
    obtain rfl := req.eq_of_answered he
    exact Or.inl ⟨hasking, x, hx, hmem⟩
  | @close r req answer stage node next writes hr hphase hsec =>
    refine h.shrink (.setPhase hr (.setNode req (fired_disconnectSection hsec)) ?_ fun e he => ?_)
    · cases next <;> simp
    · refine Or.inr ?_
      rw [hphase]
      cases next <;> exact he
  | fail hr _ hphase _ =>
    refine h.shrink (.setPhase hr (.setNode _ rfl) ?_ fun e he => ?_)
    · rcases hphase with rfl | rfl <;> simp
    · rcases hphase with rfl | rfl <;> cases he
  | @timeout r req x hr =>
    refine h.shrink (.setPhase hr (.setNode _ rfl) req.gaveUp_ne_asking fun e he => ?_)
    rw [req.answer?_gaveUp] at he
    cases he

end AskState

/-! ### Correlation -/

/-- The key that is looked up. -/
def lookedUpKey : KeyID := ⟨realSha256 [2]⟩

/-- A response with nothing in it. -/
def emptyResponse (id : UInt32) : Packet :=
  .findDhtValueResp { requestId := id, result := .notFound [] }

theorem eq_of_idOf_emptyResponse {topic : Topic} {id id' : UInt32}
    (h : topic.idOf (emptyResponse id) = some id') : id' = id := by
  cases topic with
  | findDhtValueResp => exact (Option.some.inj h).symm
  | _ => cases h

end Tewta
