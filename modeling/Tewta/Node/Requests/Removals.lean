import Tewta.Node.Requests

/-!
# Removals

An entry of the pool goes only in the second critical section of `disconnect`.
`Removes` names the steps that run that section, `entry_of_step` says that every other
step leaves an entry where it is, and `Held.step` follows a connection from the pool
into the list of those that were removed.
-/

namespace Tewta

open Broadcast NodeState Transition

namespace NodeState

variable {codec : Codec Bytes} {s s' : NodeState} {l : NodeLabel} {n : PeerID}

/-- The step is the second critical section of a `disconnect` of a peer. -/
def Removes (s : NodeState) : NodeLabel → PeerID → Prop
  | .disconnect d _, n => ∃ quit, s.disconnects d = .running n quit .removing
  | .poll t _ _, n => ∃ stream q, s.tasks t = .handling n stream (.disconnecting .removing q)
  | _, _ => False

theorem entry_of_disconnectSection {m : PeerID} {quit : QuitPacket} {writes : Bool}
    {stage : Disconnecting} {next : Option Disconnecting} {peer : PeerInfo}
    (h : s.disconnectSection codec m quit writes stage = some (s', next))
    (hn : s.pool.connections[n]? = some peer) :
    s'.pool.connections[n]? = some peer ∨ stage = .removing ∧ m = n := by
  rcases disconnectSection_cases h with ⟨-, -, ⟨rfl, -⟩ | ⟨peer', body, -, -, rfl⟩⟩ |
    ⟨hstage, ⟨-, -, rfl⟩ | ⟨peer', -, -, rfl⟩⟩ | ⟨-, -, rfl⟩
  · exact Or.inl hn
  · exact Or.inl hn
  · exact Or.inl hn
  · by_cases heq : m = n
    · exact Or.inr ⟨hstage, heq⟩
    · rw [getElem?_removePeer, if_neg heq]
      exact Or.inl hn
  · exact Or.inl hn

theorem entry_of_step {peer : PeerInfo} (h : s.step codec l = some s')
    (hn : s.pool.connections[n]? = some peer) :
    s'.pool.connections[n]? = some peer ∨ s.Removes l n := by
  cases step_cases h with
  | @insert m addr =>
    refine Or.inl ?_
    rw [NodeState.insertPeer]
    split
    · split <;> exact hn
    · rename_i hnone
      have hne : m ≠ n := by
        rintro rfl
        rw [hn] at hnone
        cases hnone
      show (s.pool.insert m _).connections[n]? = some peer
      rw [ConnectionPool.getElem?_insert, if_neg hne]
      exact hn
  | outside => exact Or.inl hn
  | call => exact Or.inl hn
  | @disconnect d m quit stage u next writes hd hsec =>
    rcases entry_of_disconnectSection hsec hn with hu | ⟨rfl, rfl⟩
    · exact Or.inl hu
    · exact Or.inr ⟨quit, hd⟩
  | disconnectEnds => exact Or.inl hn
  | @poll t writes shuffle u hpoll =>
    rcases pollTask_cases hpoll with ⟨m, stream, got, -, hcase⟩ | ⟨m, stream, handler, ht, hcase⟩
    · refine Or.inl ?_
      rcases hcase with ⟨b, rest, -, -, rfl⟩ | ⟨-, -, -, rfl⟩ | ⟨-, rfl⟩ | ⟨-, -, -, -, -, rfl⟩ <;>
        exact hn
    · rcases hcase with ⟨-, rfl⟩ | ⟨u, handler', hsec, rfl⟩
      · exact Or.inl hn
      · rcases handlerSection_cases hsec with ⟨⟨dht, fired, rfl⟩, -⟩ |
          ⟨response, p, peer', body, -, -, -, -, -, rfl⟩ | ⟨stage, q, next, rfl, -, hdisc⟩
        · exact Or.inl hn
        · exact Or.inl hn
        · rcases entry_of_disconnectSection hdisc hn with hu | ⟨rfl, rfl⟩
          · exact Or.inl hu
          · exact Or.inr ⟨stream, q, ht⟩
  | cancel => exact Or.inl hn
  | send => exact Or.inl hn

/-- The connection on a stream was removed. -/
def Gone (s : NodeState) (stream : StreamId) : Prop := ∃ x ∈ s.removed, x.stream = stream

/-- The second critical section of `disconnect` goes through: the peer is gone, its
connection was removed, and nothing is fired. -/
theorem exists_removing (codec : Codec Bytes) (s : NodeState) (n : PeerID) (quit : QuitPacket)
    (writes : Bool) : ∃ u next, s.disconnectSection codec n quit writes .removing = some (u, next) ∧
      u.pool.connections[n]? = none ∧ u.fired = s.fired ∧
      ∀ peer, s.pool.connections[n]? = some peer → u.Gone peer.writeStream := by
  rw [disconnectSection]
  cases hn : s.pool.connections[n]? with
  | some peer =>
    refine ⟨_, _, rfl, ?_, rfl, fun peer' hpeer => ?_⟩
    · rw [getElem?_removePeer, if_pos rfl]
    · obtain rfl := Option.some.inj hpeer
      exact ⟨_, List.mem_append_right _ (List.mem_singleton_self _), rfl⟩
  | none => exact ⟨_, _, rfl, hn, rfl, fun peer hpeer => by cases hpeer⟩

/-- **A removal removes.** -/
theorem removed_of_removes (h : s.step codec l = some s') (hl : s.Removes l n) :
    s'.pool.connections[n]? = none ∧ s'.fired = s.fired ∧
      ∀ peer, s.pool.connections[n]? = some peer → s'.Gone peer.writeStream := by
  cases l with
  | disconnect d writes =>
    obtain ⟨quit, hd⟩ := hl
    obtain ⟨u, next, hsec, hspec⟩ := exists_removing codec s n quit writes
    simp only [NodeState.step, hd, hsec] at h
    cases h
    exact hspec
  | poll t writes shuffle =>
    obtain ⟨stream, q, ht⟩ := hl
    obtain ⟨u, next, hsec, hspec⟩ := exists_removing codec s n quitReceived writes
    simp only [NodeState.step, NodeState.pollTask, ht, handlerSection, hsec] at h
    cases h
    exact hspec
  | _ => exact hl.elim

theorem Gone.disconnectSection {stream : StreamId} (hgone : s.Gone stream) {quit : QuitPacket}
    {writes : Bool} {stage : Disconnecting} {next : Option Disconnecting}
    (h : s.disconnectSection codec n quit writes stage = some (s', next)) : s'.Gone stream := by
  obtain ⟨x, hx, hstream⟩ := hgone
  rcases disconnectSection_cases h with ⟨-, -, ⟨rfl, -⟩ | ⟨peer, body, -, -, rfl⟩⟩ |
    ⟨-, ⟨-, -, rfl⟩ | ⟨peer, -, -, rfl⟩⟩ | ⟨-, -, rfl⟩
  · exact ⟨x, hx, hstream⟩
  · exact ⟨x, hx, hstream⟩
  · exact ⟨x, hx, hstream⟩
  · exact ⟨x, List.mem_append_left _ hx, hstream⟩
  · exact ⟨x, hx, hstream⟩

theorem Gone.step {stream : StreamId} (hgone : s.Gone stream) (h : s.step codec l = some s') :
    s'.Gone stream := by
  cases step_cases h with
  | insert =>
    rw [NodeState.insertPeer]
    split
    · split <;> exact hgone
    · exact hgone
  | outside => exact hgone
  | call => exact hgone
  | disconnect _ hsec =>
    have hu := hgone.disconnectSection hsec
    exact hu
  | disconnectEnds => exact hgone
  | poll hpoll =>
    rcases pollTask_cases hpoll with ⟨m, stream, got, -, hcase⟩ | ⟨m, stream, handler, -, hcase⟩
    · rcases hcase with ⟨b, rest, -, -, rfl⟩ | ⟨-, -, -, rfl⟩ | ⟨-, rfl⟩ | ⟨-, -, -, -, -, rfl⟩ <;>
        exact hgone
    · rcases hcase with ⟨-, rfl⟩ | ⟨u, handler', hsec, rfl⟩
      · exact hgone
      · rcases handlerSection_cases hsec with ⟨⟨dht, fired, rfl⟩, -⟩ |
          ⟨response, p, peer', body, -, -, -, -, -, rfl⟩ | ⟨stage, q, next, -, -, hdisc⟩
        · exact hgone
        · exact hgone
        · have hu := hgone.disconnectSection hdisc
          exact hu
  | cancel => exact hgone
  | send => exact hgone

end NodeState

namespace AskState

variable {codec : Codec Bytes} {s s' : AskState} {l : AskLabel} {n : PeerID}

/-- The step removes a peer, as part of a lookup or a ping or of anything else. -/
def Removes (s : AskState) : AskLabel → PeerID → Prop
  | .node l, n => s.node.Removes l n
  | .run r _, n => ∃ req answer, s.requests r = some req ∧ req.peerId = n ∧
      req.phase = .closing answer .removing
  | _, _ => False

theorem entry_of_step {peer : PeerInfo} (h : s.step codec l = some s')
    (hn : s.node.pool.connections[n]? = some peer) :
    s'.node.pool.connections[n]? = some peer ∨ s.Removes l n := by
  cases step_cases h with
  | node hnode =>
    rw [node_afterNode]
    exact NodeState.entry_of_step hnode hn
  | ask => exact Or.inl hn
  | listen => exact Or.inl hn
  | send _ _ _ hnode =>
    refine Or.inl ?_
    rcases sendPacket_cases hnode with rfl | ⟨peer', body, -, -, -, rfl⟩ <;> exact hn
  | ignore => exact Or.inl hn
  | accept =>
    rw [node_setPhase]
    exact Or.inl hn
  | @close r req answer stage node next writes hr hphase hsec =>
    rw [node_setPhase]
    rcases entry_of_disconnectSection hsec hn with hu | ⟨rfl, heq⟩
    · exact Or.inl hu
    · exact Or.inr ⟨req, answer, hr, heq, hphase⟩
  | fail =>
    rw [node_setPhase]
    exact Or.inl hn
  | timeout =>
    rw [node_setPhase]
    exact Or.inl hn

theorem fired_prefix (h : s.step codec l = some s') : s.node.fired <+: s'.node.fired := by
  cases step_cases h with
  | node hnode =>
    rw [node_afterNode]
    rcases fired_step hnode with heq | ⟨t, n, stream, p, -, heq⟩
    · rw [heq]
    · rw [heq]
      exact List.prefix_append _ _
  | ask => exact List.prefix_rfl
  | listen => exact List.prefix_rfl
  | send _ _ _ hnode =>
    exact (congrArg (s.node.fired <+: ·) (fired_sendPacket hnode)).mpr List.prefix_rfl
  | ignore => exact List.prefix_rfl
  | accept =>
    rw [node_setPhase]
    exact List.prefix_rfl
  | close _ _ hsec =>
    rw [node_setPhase]
    exact (congrArg (s.node.fired <+: ·) (fired_disconnectSection hsec)).mpr List.prefix_rfl
  | fail =>
    rw [node_setPhase]
  | timeout =>
    rw [node_setPhase]

/-- **A removal removes.** -/
theorem removed_of_removes (h : s.step codec l = some s') (hl : s.Removes l n) :
    s'.node.pool.connections[n]? = none ∧ s'.node.fired = s.node.fired ∧
      ∀ peer, s.node.pool.connections[n]? = some peer → s'.node.Gone peer.writeStream := by
  cases l with
  | node l =>
    obtain ⟨node, hnode, rfl⟩ := Option.map_eq_some_iff.mp h
    rw [node_afterNode]
    exact NodeState.removed_of_removes hnode hl
  | run r writes =>
    obtain ⟨req, answer, hr, rfl, hphase⟩ := hl
    obtain ⟨u, next, hsec, hspec⟩ :=
      exists_removing codec s.node req.peerId (closingQuit answer) writes
    simp only [step, hr, run, hphase, hsec] at h
    cases next with
    | none =>
      cases h
      rw [node_setPhase]
      exact hspec
    | some stage =>
      cases h
      rw [node_setPhase]
      exact hspec
  | _ => exact hl.elim

theorem gone_of_step {stream : StreamId} (hgone : s.node.Gone stream)
    (h : s.step codec l = some s') : s'.node.Gone stream := by
  cases step_cases h with
  | node hnode =>
    rw [node_afterNode]
    exact hgone.step hnode
  | ask => exact hgone
  | listen => exact hgone
  | send _ _ _ hnode =>
    rcases sendPacket_cases hnode with rfl | ⟨peer', body, -, -, -, rfl⟩ <;> exact hgone
  | ignore => exact hgone
  | accept =>
    rw [node_setPhase]
    exact hgone
  | close _ _ hsec =>
    rw [node_setPhase]
    exact hgone.disconnectSection hsec
  | fail =>
    rw [node_setPhase]
    exact hgone
  | timeout =>
    rw [node_setPhase]
    exact hgone

/-- A connection of a peer is in the pool, or was removed. -/
def Held (s : AskState) (n : PeerID) (stream : StreamId) : Prop :=
  (∃ peer, s.node.pool.connections[n]? = some peer ∧ peer.writeStream = stream) ∨
    s.node.Gone stream

/-- **A connection that leaves the pool was removed.** -/
theorem Held.step {stream : StreamId} (hheld : s.Held n stream) (h : s.step codec l = some s') :
    s'.Held n stream := by
  rcases hheld with ⟨peer, hn, rfl⟩ | hgone
  · rcases entry_of_step h hn with hn' | hremoves
    · exact Or.inl ⟨peer, hn', rfl⟩
    · exact Or.inr ((removed_of_removes h hremoves).2.2 peer hn)
  · exact Or.inr (gone_of_step hgone h)

/-- A peer that is not in the pool has no connection but removed ones. -/
theorem Held.gone {stream : StreamId} (hheld : s.Held n stream)
    (hn : s.node.pool.connections[n]? = none) : s.node.Gone stream := by
  rcases hheld with ⟨peer, hn', -⟩ | hgone
  · rw [hn] at hn'
    cases hn'
  · exact hgone

end AskState

end Tewta
