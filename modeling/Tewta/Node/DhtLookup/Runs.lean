import Tewta.Node.DhtLookup
import Tewta.Node.Requests.Runs

/-!
# Runs of a lookup

What it takes to drive `dht_lookup`: a lookup asks on the connection there is or opens one
of its own, a peer is disconnected meanwhile, and the first values end it all.
-/

namespace Tewta

open Broadcast NodeState Transition

namespace NodeState

variable {codec : Codec Bytes} {s : NodeState} {n : PeerID}

/-- A peer is disconnected, up to the announcement. -/
def hangUpOn (n : PeerID) : List NodeLabel :=
  [.callDisconnect 0 n (closingQuit none), .disconnect 0 true, .disconnect 0 true]

theorem exec_hangUpOn {peer : PeerInfo} {body : Bytes} (hd : s.disconnects 0 = .notCalled)
    (hn : s.pool.connections[n]? = some peer)
    (hbody : codec.rawBytes (.quit (closingQuit none)) = .ok body) :
    ∃ u, exec (NodeState.step codec) s (hangUpOn n) = some u ∧
      u.pool.connections[n]? = none ∧ u.tasks = s.tasks ∧ u.inbound = s.inbound ∧
      u.closed = s.closed ∧ u.fired = s.fired ∧ u.next = s.next ∧
      u.removed = s.removed ++ [⟨n, peer.writeStream,
        (s.wrote peer.writeStream (.quit (closingQuit none))).written peer.writeStream⟩] := by
  simp [hangUpOn, exec_cons, NodeState.step, hd, setDisconnect, NodeState.disconnectSection,
    sendPacketUnchecked, hbody, hn, DisconnectCall.resume, NodeState.wrote, NodeState.removePeer,
    ConnectionPool.remove]

end NodeState

namespace NodeState

variable {s : NodeState} {n : PeerID}

theorem insertPeer_frame (codec : Codec Bytes) (addr : String)
    (hn : s.pool.connections[n]? = none) :
    (∀ t, t ≠ s.next → (s.insertPeer codec n addr).tasks t = s.tasks t) ∧
      (s.insertPeer codec n addr).inbound = s.inbound ∧
      (s.insertPeer codec n addr).closed = s.closed ∧
      (s.insertPeer codec n addr).fired = s.fired ∧
      (s.insertPeer codec n addr).removed = s.removed := by
  rw [insertPeer_of_none codec addr hn]
  exact ⟨fun t ht => Function.update_of_ne ht _ _, rfl, rfl, rfl, rfl⟩

end NodeState

namespace AskState

variable {codec : Codec Bytes} {s s' : AskState} {r : ℕ}

theorem requests_of_ask {key : KeyID} {n : PeerID} {closes : Bool}
    (h : s.step codec (.ask r (.findDhtValue key) n closes) = some s') :
    s.requests r = none ∧ ∃ req, s'.requests r = some req ∧ req.topic = .findDhtValueResp ∧
      req.peerId = n ∧ req.closes = closes ∧ req.phase = .asking ∧ req.todo = [.listen, .send] := by
  rw [step] at h
  split at h
  · rename_i hnone
    cases h
    exact ⟨hnone, _, Function.update_self _ _ _, rfl, rfl, rfl, rfl, rfl⟩
  · cases h

theorem node_of_mem_respond {t : TaskId} {stream : StreamId} {body : Bytes} {l : AskLabel}
    (hl : l ∈ respond t stream body) : ∃ l', l = .node l' := by
  rw [respond] at hl
  rcases List.mem_append.mp hl with hl | hl
  · obtain ⟨l, -, rfl⟩ := List.mem_map.mp hl
    exact ⟨l, rfl⟩
  · rcases List.mem_pair.mp hl with rfl | rfl
    · exact ⟨_, rfl⟩
    · exact ⟨_, rfl⟩

end AskState

namespace LookupState

variable {codec : Codec Bytes} {s : LookupState}

theorem exec_map_other {labels : List AskLabel} {ask : AskState}
    (h : exec (AskState.step codec) s.ask labels = some ask)
    (hl : ∀ l ∈ labels, s.owns l.request? = false) :
    exec (LookupState.step codec) s (labels.map .other) = some { s with ask } := by
  induction labels generalizing s with
  | nil =>
    cases h
    rfl
  | cons l labels ih =>
    obtain ⟨u, hu, hrun⟩ := exec_cons_eq_some.mp h
    have hstep : s.step codec (.other l) = some { s with ask := u } := by
      rw [LookupState.step, if_neg (by rw [hl l List.mem_cons_self]; decide), hu]
      rfl
    refine exec_cons_eq_some.mpr ⟨_, hstep, ih (s := { s with ask := u }) hrun ?_⟩
    intro l' hmem
    exact hl l' (List.mem_cons_of_mem _ hmem)

theorem settle_of_asking {i r : ℕ} {provider : PeerID × String} {own : Option StreamId}
    {req : Request} (hi : s.At i provider r own) (hr : s.ask.requests r = some req)
    (hasking : req.phase = .asking) : s.settle codec i = s := by
  have hi' : s.lookups[i]? = _ := hi
  simp [settle, hi', hasPanicked, result, hr, hasking]

theorem request_of_asking {i r : ℕ} {provider : PeerID × String} {own : Option StreamId}
    {ask : AskState} {req : Request} (hi : s.At i provider r own)
    (h : s.ask.step codec (.run r true) = some ask) (hr : ask.requests r = some req)
    (hasking : req.phase = .asking) : s.step codec (.request i true) = some { s with ask } := by
  have hi' : s.lookups[i]? = _ := hi
  rw [LookupState.step, hi']
  show (s.ask.step codec (.run r true)).map _ = _
  rw [h]
  exact congrArg some (settle_of_asking (s := { s with ask }) hi hr hasking)

theorem exec_asked {i r : ℕ} {provider : PeerID × String} {peer : PeerInfo} {body : Bytes}
    (hi : s.lookups[i]? = some ⟨provider, .checking⟩) (hnone : s.ask.requests r = none)
    (hn : s.ask.node.pool.connections[provider.1]? = some peer)
    (hbody : codec.rawBytes ((Question.findDhtValue s.key).packet
      (UInt32.ofNat (s.ask.counters .findDhtValueResp))) = .ok body) :
    exec (LookupState.step codec) s [.contains i r, .request i true, .request i true] =
      some ({ s with
        ask := s.ask.afterLookUp r s.key provider.1 false peer.writeStream }.setStage i provider
          (.requesting r none)) := by
  obtain ⟨u₁, h₁, hrun⟩ := exec_cons_eq_some.mp (AskState.exec_lookUp hnone hn hbody)
  obtain ⟨u₂, h₂, h₃⟩ := exec_cons_eq_some.mp hrun
  rw [exec_singleton] at h₃
  have hcontains : s.ask.node.pool.contains provider.1 = true := by
    rw [ConnectionPool.contains_eq_isSome, hn]
    rfl
  have hlt := (List.getElem?_eq_some_iff.mp hi).1
  have hstep₁ : s.step codec (.contains i r) =
      some ({ s with ask := u₁ }.setStage i provider (.requesting r none)) := by
    rw [LookupState.step, hi]
    show (if s.ask.node.pool.contains provider.1 = true then _ else _) = _
    rw [if_pos hcontains, h₁]
    rfl
  have hat : ∀ ask : AskState, ({ s with ask }.setStage i provider (.requesting r none)).At i
      provider r none := fun ask => at_setStage.mpr (Or.inl ⟨rfl, hlt, rfl, rfl⟩)
  -- the request is still asking when it has listened
  have hasking : ∃ req, u₂.requests r = some req ∧ req.phase = .asking := by
    obtain ⟨-, req, hr, -, -, -, hphase, htodo⟩ := AskState.requests_of_ask h₁
    cases h₂.symm.trans (AskState.step_listen codec true hr hphase htodo)
    exact ⟨_, Function.update_self _ _ _, hphase⟩
  obtain ⟨req, hr, hphase⟩ := hasking
  refine exec_cons_eq_some.mpr ⟨_, hstep₁, exec_cons_eq_some.mpr
    ⟨_, request_of_asking (hat u₁) h₂ hr hphase, ?_⟩⟩
  rw [exec_singleton]
  exact request_of_asking (hat u₂) h₃ (Function.update_self _ _ _) rfl

theorem exec_opened (codec : Codec Bytes) {i r : ℕ} {provider : PeerID × String} (addr : String)
    (hi : s.lookups[i]? = some ⟨provider, .checking⟩) (hnone : s.ask.requests r = none)
    (hn : s.ask.node.pool.connections[provider.1]? = none) :
    ∃ ask, exec (LookupState.step codec) s
        [.contains i r, .connect i true, .handshake i r (.ok addr)] =
      some ({ s with
        ask, opened := s.opened ++ [(provider.1, s.ask.node.next)] }.setStage i provider
          (.requesting r (some s.ask.node.next))) ∧
      ask.node = s.ask.node.insertPeer codec provider.1 addr ∧
      ask.listeners = s.ask.listeners ∧
      ∀ r', r' ≠ r → ask.requests r' = s.ask.requests r' := by
  have hlt := (List.getElem?_eq_some_iff.mp hi).1
  have hcontains : s.ask.node.pool.contains provider.1 = false := by
    rw [ConnectionPool.contains_eq_isSome, hn]
    rfl
  have hfired : (s.ask.node.insertPeer codec provider.1 addr).fired = s.ask.node.fired := by
    rw [insertPeer_of_none codec addr hn]
    rfl
  let node := s.ask.node.insertPeer codec provider.1 addr
  have hinsert : s.ask.step codec (.node (.insert provider.1 addr)) =
      some { s.ask with node } := congrArg some (AskState.afterNode_of_eq hfired)
  obtain ⟨ask, hask⟩ : ∃ ask, ({ s.ask with node } : AskState).step codec
      (.ask r (.findDhtValue s.key) provider.1 true) = some ask := by
    rw [AskState.step, hnone]
    exact ⟨_, rfl⟩
  have hstep₁ : s.step codec (.contains i r) = some (s.setStage i provider .connecting) := by
    rw [LookupState.step, hi]
    show (if s.ask.node.pool.contains provider.1 = true then _ else _) = _
    rw [if_neg (by rw [hcontains]; decide)]
  have hget : ∀ stage, (s.setStage i provider stage).lookups[i]? = some ⟨provider, stage⟩ :=
    fun stage => List.getElem?_set_self hlt
  have hstep₂ : (s.setStage i provider .connecting).step codec (.connect i true) =
      some (s.setStage i provider .handshaking) := by
    rw [LookupState.step, hget]
    simp [setStage]
  refine ⟨ask, exec_cons_eq_some.mpr ⟨_, hstep₁, exec_cons_eq_some.mpr ⟨_, hstep₂, ?_⟩⟩, ?_⟩
  · rw [exec_singleton, LookupState.step, hget]
    show (s.ask.step codec (.node (.insert provider.1 addr))).bind (fun ask =>
      if s.ask.node.pool.contains provider.1 = true then _ else _) = _
    rw [hinsert]
    show (if s.ask.node.pool.contains provider.1 = true then _ else _) = _
    rw [if_neg (by rw [hcontains]; decide)]
    show Option.map _ (AskState.step codec { s.ask with node }
      (.ask r (.findDhtValue s.key) provider.1 true)) = _
    rw [hask]
    simp [setStage]
  · rw [AskState.step, hnone] at hask
    cases hask
    exact ⟨rfl, rfl, fun r' hr' => Function.update_of_ne hr' _ _⟩

theorem fill_pair {a b : PeerID × String} (hproviders : s.providers = [b, a])
    (hlookups : s.lookups = []) (hcomplete : s.shouldComplete = false) (ha : a.1 ≠ s.key)
    (hb : b.1 ≠ s.key) : s.fill = { s with
      providers := []
      alreadyQueried := b :: a :: s.alreadyQueried
      lookups := [⟨a, .checking⟩, ⟨b, .checking⟩]
      shouldComplete := false } := by
  simp [fill, DhtSearch.fill, DhtSearch.fillWith, kademliaAlpha, hproviders, hlookups, hcomplete,
    ha, hb]

/-- **The first values end it all**: the response is read, the lookup takes it, and
nothing is disconnected. -/
theorem exec_found {i r : ℕ} {provider : PeerID × String} {req : Request} {x : Listening}
    {t : TaskId} {n : PeerID} {stream : StreamId} {p : FindDhtValueRespPacket} {body : Bytes}
    {values : List DhtValue} (hi : s.At i provider r none) (hr : s.ask.requests r = some req)
    (hphase : req.phase = .asking) (htodo : req.todo = []) (hx : req.listening = some x)
    (hcloses : req.closes = false) (htopic : req.topic = .findDhtValueResp)
    (hqueue : (s.ask.listeners .findDhtValueResp).queue x.receiver = [])
    (hopen : (s.ask.listeners .findDhtValueResp).isOpen x.receiver = true)
    (hanswers : req.Answers ⟨s.ask.node.fired.length, n, .findDhtValueResp p⟩)
    (hvalues : p.result = .found values) (hshort : p.result.isShort = true)
    (hbody : body.length < maxPacketSize)
    (hdec : codec.fromRawBytes body = .ok (.findDhtValueResp p))
    (ht : s.ask.node.tasks t = .reading n stream []) (hin : s.ask.node.inbound stream = [])
    (hclosed : s.ask.node.closed stream = false) :
    ∃ s', exec (LookupState.step codec) s
        ((AskState.respond t stream body).map .other ++ [.request i true]) = some s' ∧
      s'.status = .returned (some values) ∧ s'.opened = s.opened ∧
      s'.ask.node.removed = s.ask.node.removed := by
  have hi' : s.lookups[i]? = _ := hi
  let event : PacketEvent := ⟨s.ask.node.fired.length, n, .findDhtValueResp p⟩
  let ask := s.ask.afterRespond s.ask.node.fired n (.findDhtValueResp p)
  have h₁ : exec (LookupState.step codec) s ((AskState.respond t stream body).map .other) =
      some { s with ask } := by
    refine exec_map_other (AskState.exec_respond rfl hbody hdec ht hin hclosed
      fun _ _ _ => ?_) ?_
    · rw [onPacket, notifyIf, if_pos hshort]
    intro l hl
    obtain ⟨l, rfl⟩ := AskState.node_of_mem_respond hl
    rfl
  have hqueue' : (ask.listeners req.topic).queue x.receiver = [event] := by
    rw [htopic]
    refine (AskState.queue_afterRespond rfl hopen).trans ?_
    rw [hqueue]
    rfl
  have h₂ := AskState.step_accept codec true (s := ask) hr hphase htodo hx hqueue' hanswers
  generalize hu : AskState.setPhase _ r req _ = u at h₂
  have hanswered : req.answered event = .ended (some event) := by
    rw [Request.answered, hcloses]
    cases req.question <;> rfl
  have hru : u.requests r = some { req with phase := .ended (some event) } := by
    rw [← hu, ← hanswered]
    exact AskState.requests_setPhase_self
  have hnode : u.node = ask.node := by
    rw [← hu]
    exact AskState.node_setPhase
  have hres : result u ⟨provider, .requesting r none⟩ = some (.ok (.found values)) := by
    simp [result, hru, event, hvalues]
  have h₃ : ({ s with ask } : LookupState).step codec (.request i true) =
      some (({ s with ask := u } : LookupState).finish codec (s.lookups.eraseIdx i)
        (.returned (some values))) := by
    rw [LookupState.step, hi']
    show (ask.step codec (.run r true)).map _ = _
    rw [h₂]
    exact congrArg some (settle_of_found (s := { s with ask := u }) hi' hres)
  refine ⟨_, (exec_append_of h₁).trans ((exec_singleton _ _).trans h₃), rfl, rfl, ?_⟩
  rw [node_finish]
  show u.node.removed = _
  rw [hnode]
  rfl

end LookupState

end Tewta
