import Tewta.Node.System

/-!
# A Quit before every removal

`disconnect` sends the Quit in one critical section and removes the peer in
another.  Both look the peer up by its id, so the second removes whatever
connection is there by then.  `removals_have_quits_iff_no_late_insert` is about
any number of calls, by read tasks and by anybody else, in any order: as long as
no connection of a peer enters the pool while a call of `disconnect` for that
peer is between its two sections, a Quit has been written on every connection
before it is removed; and as soon as one does enter, the next step can remove it
without a Quit.  `removal_without_quit` is a run of two calls in which it does.
-/

namespace Tewta

open Transition NodeState

variable {codec : Codec Bytes}

namespace NodeState

/-- A Quit was written on the stream. -/
def HasQuit (s : NodeState) (stream : StreamId) : Prop := ∃ q, Packet.quit q ∈ s.written stream

/-- A call of `disconnect` for the peer is between its two sections. -/
def Removing (s : NodeState) (n : PeerID) : Prop :=
  (∃ d q, s.disconnects d = .running n q .removing) ∨
    ∃ t stream q, s.tasks t = .handling n stream (.disconnecting .removing q)

/-- Every connection that was removed had a Quit written on it before. -/
def RemovalsHaveQuits (s : NodeState) : Prop := ∀ r ∈ s.removed, ∃ q, Packet.quit q ∈ r.written

/-- So it is now, and so it will be whatever the next step. -/
def StaysQuit (codec : Codec Bytes) (s : NodeState) : Prop :=
  s.RemovalsHaveQuits ∧ ∀ l u, s.step codec l = some u → u.RemovalsHaveQuits

/-- No connection of a peer enters the pool while the peer is being removed. -/
def NoLateInsert (s : NodeState) : NodeLabel → Prop
  | .insert n _ => s.pool.connections[n]? = none → ¬ s.Removing n
  | _ => True

theorem HasQuit.wrote {s : NodeState} {stream : StreamId} (h : s.HasQuit stream)
    (stream' : StreamId) (p : Packet) : (s.wrote stream' p).HasQuit stream := by
  obtain ⟨q, hq⟩ := h
  exact ⟨q, mem_wrote hq stream' p⟩

end NodeState

/-- The peers that are being removed have their Quit. -/
structure QuitInv (s : NodeState) : Prop where
  removing : ∀ (n : PeerID) (peer : PeerInfo), s.Removing n →
    s.pool.connections[n]? = some peer → s.HasQuit peer.writeStream
  removed : s.RemovalsHaveQuits

theorem QuitInv.init (ourPeerId : PeerID) : QuitInv (NodeState.init ourPeerId) where
  removing n peer h hn := by simp [NodeState.init, ConnectionPool.new] at hn
  removed r hr := by cases hr

section Sections

variable {s s' : NodeState} {n : PeerID} {peer : PeerInfo}

theorem QuitInv.wrote (inv : QuitInv s) (stream : StreamId) (p : Packet) :
    QuitInv (s.wrote stream p) where
  removing m peer hm hpeer := (inv.removing m peer hm hpeer).wrote stream p
  removed := inv.removed

theorem QuitInv.removePeer (inv : QuitInv s) (hquit : s.HasQuit peer.writeStream) :
    QuitInv (s.removePeer n peer) := by
  refine ⟨fun m peer' hm hpeer' => ?_, fun r hr => ?_⟩
  · rw [getElem?_removePeer] at hpeer'
    split at hpeer'
    · cases hpeer'
    · exact inv.removing m peer' hm hpeer'
  · rcases List.mem_append.mp hr with hr | hr
    · exact inv.removed r hr
    · rw [List.mem_singleton.mp hr]
      exact hquit

/-- A section of `disconnect` keeps the invariant and the peers that are being
removed; after the first section the peer, if it is there, has its Quit. -/
theorem QuitInv.disconnectSection (hser : ∀ q, ∃ body, codec.rawBytes (.quit q) = .ok body)
    (inv : QuitInv s) {quit : QuitPacket} {writes : Bool} {stage : Disconnecting}
    {next : Option Disconnecting}
    (h : s.disconnectSection codec n quit writes stage = some (s', next))
    (hstage : stage = .removing → s.Removing n) :
    QuitInv s' ∧ (next = some .removing →
      ∀ peer, s'.pool.connections[n]? = some peer → s'.HasQuit peer.writeStream) := by
  rcases disconnectSection_cases h with ⟨-, -, ⟨rfl, hnone⟩ | ⟨peer, body, -, hn, rfl⟩⟩ |
    ⟨hremoving, ⟨rfl, -, rfl⟩ | ⟨peer, rfl, hn, rfl⟩⟩ | ⟨-, rfl, rfl⟩
  · refine ⟨inv, fun _ peer hpeer => ?_⟩
    rcases hnone with ⟨e, he⟩ | hnone
    · obtain ⟨body, hbody⟩ := hser quit
      rw [he] at hbody
      cases hbody
    · rw [hnone] at hpeer
      cases hpeer
  · refine ⟨inv.wrote _ _, fun _ peer' hpeer' => ?_⟩
    have heq : peer' = peer := Option.some.inj (hpeer'.symm.trans hn)
    rw [heq]
    exact ⟨quit, mem_wrote_self s _ _⟩
  · exact ⟨inv, by simp⟩
  · exact ⟨inv.removePeer (inv.removing n peer (hstage hremoving) hn), by simp⟩
  · exact ⟨⟨inv.removing, inv.removed⟩, by simp⟩

theorem QuitInv.handlerSection (hser : ∀ q, ∃ body, codec.rawBytes (.quit q) = .ok body)
    (inv : QuitInv s) {writes : Bool} {shuffle : Shuffle} {handler handler' : Handler}
    (h : s.handlerSection codec n writes shuffle handler = some (s', handler'))
    (hstage : ∀ q, handler = .disconnecting .removing q → s.Removing n) :
    QuitInv s' ∧ ∀ q, handler' = .disconnecting .removing q →
      ∀ peer, s'.pool.connections[n]? = some peer → s'.HasQuit peer.writeStream := by
  rcases handlerSection_cases h with ⟨⟨dht, fired, rfl⟩, -, hne⟩ |
    ⟨response, p, peer, body, -, rfl, -, -, -, rfl⟩ | ⟨stage, q', next, rfl, rfl, hsec⟩
  · exact ⟨⟨inv.removing, inv.removed⟩, fun q hq => absurd hq (hne q)⟩
  · exact ⟨inv.wrote _ response, by simp⟩
  · obtain ⟨hinv, hquit⟩ := inv.disconnectSection hser hsec fun hst => hstage q' (by rw [hst])
    refine ⟨hinv, fun q hq => ?_⟩
    cases next with
    | none => cases hq
    | some stage' =>
      cases hq
      exact hquit rfl

theorem QuitInv.setDisconnect (inv : QuitInv s) {d : ℕ} {call : DisconnectCall}
    (h : ∀ m q, call = .running m q .removing → ∀ peer, s.pool.connections[m]? = some peer →
      s.HasQuit peer.writeStream) : QuitInv (s.setDisconnect d call) := by
  refine ⟨fun m peer hm hpeer => ?_, inv.removed⟩
  rcases hm with ⟨d', q, hd⟩ | hm
  · rcases update_eq_cases hd with ⟨-, hcall⟩ | ⟨-, hd⟩
    · exact h m q hcall peer hpeer
    · exact inv.removing m peer (Or.inl ⟨d', q, hd⟩) hpeer
  · exact inv.removing m peer (Or.inr hm) hpeer

theorem QuitInv.setTask (inv : QuitInv s) {t : TaskId} {task : ReadTask}
    (h : ∀ m stream q, task = .handling m stream (.disconnecting .removing q) →
      ∀ peer, s.pool.connections[m]? = some peer → s.HasQuit peer.writeStream) :
    QuitInv (s.setTask t task) := by
  refine ⟨fun m peer hm hpeer => ?_, inv.removed⟩
  rcases hm with hm | ⟨t', stream, q, ht⟩
  · exact inv.removing m peer (Or.inl hm) hpeer
  · rcases update_eq_cases ht with ⟨-, htask⟩ | ⟨-, ht⟩
    · exact h m stream q htask peer hpeer
    · exact inv.removing m peer (Or.inr ⟨t', stream, q, ht⟩) hpeer

end Sections

/-! ### Steps -/

section Step

variable {s s' : NodeState}

theorem QuitInv.insertPeer (inv : QuitInv s) {n : PeerID} (addr : String)
    (h : s.pool.connections[n]? = none → ¬ s.Removing n) :
    QuitInv (s.insertPeer codec n addr) := by
  rw [NodeState.insertPeer]
  cases hn : s.pool.connections[n]? with
  | some peer =>
    cases codec.rawBytes (.quit alreadyConnected) with
    | error e => exact ⟨inv.removing, inv.removed⟩
    | ok body =>
      have hwrote := inv.wrote s.next (.quit alreadyConnected)
      exact ⟨hwrote.removing, hwrote.removed⟩
  | none =>
    have hremoving : ∀ m, (s.setTask s.next (.reading n s.next [])).Removing m →
        s.Removing m := by
      rintro m (hm | ⟨t, stream, q, ht⟩)
      · exact Or.inl hm
      · rcases update_eq_cases ht with ⟨-, htask⟩ | ⟨-, ht⟩
        · cases htask
        · exact Or.inr ⟨t, stream, q, ht⟩
    refine ⟨fun m peer hm hpeer => ?_, inv.removed⟩
    simp only [ConnectionPool.getElem?_insert] at hpeer
    split at hpeer
    · rename_i heq
      exact absurd (hremoving m hm) (heq ▸ h hn)
    · exact inv.removing m peer (hremoving m hm) hpeer

theorem QuitInv.pollTask (hser : ∀ q, ∃ body, codec.rawBytes (.quit q) = .ok body)
    (inv : QuitInv s) {t : TaskId} {writes : Bool} {shuffle : Shuffle}
    (h : s.pollTask codec t writes shuffle = some s') : QuitInv s' := by
  rcases pollTask_cases h with ⟨n, stream, got, ht, hcase⟩ | ⟨n, stream, handler, ht, hcase⟩
  · rcases hcase with ⟨b, rest, -, -, rfl⟩ | ⟨-, -, -, rfl⟩ | ⟨-, rfl⟩ |
      ⟨_, _, handler, -, hstart, rfl⟩
    · have hread : QuitInv { s with inbound := Function.update s.inbound stream rest } :=
        ⟨inv.removing, inv.removed⟩
      exact hread.setTask (by simp)
    · exact inv.setTask (by simp)
    · exact inv.setTask (by simp)
    · rcases hstart with ⟨e, -, rfl⟩ | ⟨p, -, rfl⟩
      · exact inv.setTask (by simp [ReadTask.resume])
      · exact inv.setTask (by simp [ReadTask.resume])
  · rcases hcase with ⟨-, rfl⟩ | ⟨u, handler', hsec, rfl⟩
    · exact inv.setTask (by simp)
    · obtain ⟨hinv, hquit⟩ := inv.handlerSection hser hsec fun q hq =>
        Or.inr ⟨t, stream, q, by rw [ht, hq]⟩
      refine hinv.setTask fun m stream' q heq => ?_
      cases handler' with
      | disconnecting stage p =>
        cases heq
        exact hquit q rfl
      | _ => cases heq

theorem QuitInv.step (hser : ∀ q, ∃ body, codec.rawBytes (.quit q) = .ok body) (inv : QuitInv s)
    {l : NodeLabel} (hl : s.NoLateInsert l) (h : s.step codec l = some s') : QuitInv s' := by
  cases step_cases h with
  | insert => exact inv.insertPeer _ hl
  | outside => exact ⟨inv.removing, inv.removed⟩
  | call => exact inv.setDisconnect (by simp)
  | disconnect hd hsec =>
    rename_i d n quit stage u next writes
    obtain ⟨hinv, hquit⟩ := inv.disconnectSection hser hsec fun hst =>
      Or.inl ⟨d, quit, by rw [hd, hst]⟩
    refine hinv.setDisconnect fun m q heq => ?_
    cases next with
    | none => cases heq
    | some stage' =>
      cases heq
      exact hquit rfl
  | disconnectEnds _ hcall => exact inv.setDisconnect (by rcases hcall with rfl | rfl <;> simp)
  | poll hpoll => exact inv.pollTask hser hpoll
  | cancel => exact inv.setTask (by simp)
  | send => exact inv.wrote _ _

theorem removed_insertPeer (s : NodeState) (n : PeerID) (addr : String) :
    (s.insertPeer codec n addr).removed = s.removed := by
  rw [NodeState.insertPeer]
  split
  · split <;> rfl
  · rfl

theorem QuitInv.staysQuit (hser : ∀ q, ∃ body, codec.rawBytes (.quit q) = .ok body)
    (inv : QuitInv s) : s.StaysQuit codec := by
  refine ⟨inv.removed, fun l u hl => ?_⟩
  cases l with
  | insert n addr =>
    cases hl
    rw [RemovalsHaveQuits, removed_insertPeer]
    exact inv.removed
  | _ => exact (inv.step hser (by trivial) hl).removed

/-- **One late connection is one too many**: the call that is removing its peer
can remove it in its next step, and nothing was written on it. -/
theorem not_staysQuit_insertPeer (num : Numbered s) {n : PeerID} (addr : String)
    (hn : s.pool.connections[n]? = none) (hr : s.Removing n) :
    ¬ (s.insertPeer codec n addr).StaysQuit codec := by
  intro ⟨_, hstays⟩
  obtain ⟨u, hu⟩ : ∃ u, u = s.insertPeer codec n addr := ⟨_, rfl⟩
  have hu' := hu
  simp only [NodeState.insertPeer, hn] at hu'
  rw [← hu] at hstays
  have hpeer : u.pool.connections[n]? = some ⟨addr, s.next, none, s.next⟩ := by
    rw [hu', ConnectionPool.getElem?_insert, if_pos rfl]
  have hwritten : u.written s.next = [] := by
    rw [hu']
    exact num.written s.next (le_refl _)
  -- whoever removes the peer next does it without a Quit
  have hbad : ∀ v : NodeState, v.removed = u.removed ++ [⟨n, s.next, u.written s.next⟩] →
      ¬ v.RemovalsHaveQuits := by
    intro v hv hall
    obtain ⟨q, hq⟩ := hall ⟨n, s.next, u.written s.next⟩
      (hv ▸ List.mem_append_right _ (List.mem_singleton_self _))
    rw [hwritten] at hq
    cases hq
  rcases hr with ⟨d, q, hd⟩ | ⟨t, stream, q, ht⟩
  · have hd' : u.disconnects d = .running n q .removing := by rw [hu']; exact hd
    refine hbad _ rfl (hstays (.disconnect d true)
      ((u.removePeer n ⟨addr, s.next, none, s.next⟩).setDisconnect d (.running n q .announcing)) ?_)
    simp only [NodeState.step, hd', NodeState.disconnectSection, hpeer, DisconnectCall.resume]
  · have hlt : t < s.next := num.lt_of_task (by rw [ht]; simp)
    have ht' : u.tasks t = .handling n stream (.disconnecting .removing q) := by
      rw [hu']
      exact (Function.update_of_ne hlt.ne _ _).trans ht
    refine hbad _ rfl (hstays (.poll t true ⟨id, fun _ => .refl _⟩)
      ((u.removePeer n ⟨addr, s.next, none, s.next⟩).setTask t
        (.handling n stream (.disconnecting .announcing q))) ?_)
    simp only [NodeState.step, NodeState.pollTask, ht', NodeState.handlerSection,
      NodeState.disconnectSection, hpeer, Handler.resume, ReadTask.resume]

end Step

/-! ### Runs -/

/-- **A Quit is written on every connection before it is removed, exactly as long
as no connection is late**: in a run of any number of calls of `disconnect` and
`insert`, every removal so far and every removal the next step can make has its
Quit, at every point, if and only if no connection of a peer entered the pool
while a call of `disconnect` was between writing the Quit and removing the peer.
Serializing a Quit is taken to succeed. -/
theorem removals_have_quits_iff_no_late_insert
    (hser : ∀ q, ∃ body, codec.rawBytes (.quit q) = .ok body) (ourPeerId : PeerID)
    {labels : List NodeLabel} {s : NodeState}
    (hrun : exec (NodeState.step codec) (.init ourPeerId) labels = some s) :
    Always (NodeState.step codec) (StaysQuit codec) (.init ourPeerId) labels ↔
      Meets (NodeState.step codec) NoLateInsert (.init ourPeerId) labels := by
  refine always_iff_meets (I := fun s => QuitInv s ∧ Numbered s) ?_ ?_ ?_ hrun
    ⟨.init ourPeerId, .init ourPeerId⟩
  · intro s l t ⟨inv, num⟩ hok hl
    exact ⟨inv.step hser hok hl, num.step hl⟩
  · intro s ⟨inv, _⟩
    exact inv.staysQuit hser
  · intro s l t ⟨_, num⟩ hbad hl
    cases l with
    | insert n addr =>
      cases hl
      obtain ⟨hn, hr⟩ := Classical.not_imp.mp hbad
      exact not_staysQuit_insertPeer num addr hn (not_not.mp hr)
    | _ => exact absurd (by trivial) hbad

/-! ### A reconnection between two calls -/

/-- Two calls of `disconnect` have each written their Quit, one of them has
removed the peer, and the peer is back before the other does. -/
def reconnection (n : PeerID) : List NodeLabel :=
  [.insert n "local-1", .callDisconnect 0 n quitReceived, .callDisconnect 1 n quitReceived,
    .disconnect 0 true, .disconnect 1 true, .disconnect 0 true, .insert n "local-1",
    .disconnect 1 true]

theorem exec_reconnection (ourPeerId n : PeerID) {body : Bytes}
    (h : codec.rawBytes (.quit quitReceived) = .ok body) :
    ∃ s, exec (NodeState.step codec) (.init ourPeerId) (reconnection n) = some s ∧
      ⟨n, 1, []⟩ ∈ s.removed := by
  simp [reconnection, exec_cons, NodeState.step, NodeState.insertPeer, NodeState.init,
    ConnectionPool.new, setDisconnect, setTask, NodeState.disconnectSection, sendPacketUnchecked,
    h, ConnectionPool.getElem?_insert, ConnectionPool.getElem?_remove, DisconnectCall.resume,
    Function.update, NodeState.removePeer, NodeState.wrote]

/-- A codec for Quits without a message: the bytes of the reason code. -/
def reasonCodec : Codec Bytes where
  rawBytes
    | .quit q => .ok (q.reasonCode.toList.map fun c => UInt8.ofNat c.toNat)
    | _ => .error ⟨"not a Quit"⟩
  fromRawBytes body :=
    .ok (.quit
      { reasonCode := String.ofList (body.map fun b => Char.ofNat b.toNat)
        message := none
        reportFault := false })

theorem reasonCodec_rawBytes_quit (q : QuitPacket) :
    ∃ body, reasonCodec.rawBytes (.quit q) = .ok body := ⟨_, rfl⟩

/-- **A removal without a Quit.**  Every Quit serializes and every write
succeeds, and the second connection of the peer is removed with nothing written
on it. -/
theorem removal_without_quit :
    (∀ q, ∃ body, reasonCodec.rawBytes (.quit q) = .ok body) ∧
      ∃ s, exec (NodeState.step reasonCodec) (.init ⟨realSha256 []⟩)
        (reconnection ⟨realSha256 [1]⟩) = some s ∧ ¬ s.RemovalsHaveQuits := by
  obtain ⟨body, hbody⟩ := reasonCodec_rawBytes_quit quitReceived
  obtain ⟨s, hrun, hmem⟩ := exec_reconnection ⟨realSha256 []⟩ ⟨realSha256 [1]⟩ hbody
  refine ⟨reasonCodec_rawBytes_quit, s, hrun, fun hall => ?_⟩
  obtain ⟨q, hq⟩ := hall _ hmem
  cases hq

/-- In that run the connection that came back was late. -/
theorem removals_have_quits_iff_no_late_insert_reconnection :
    ¬ Meets (NodeState.step reasonCodec) NoLateInsert (.init ⟨realSha256 []⟩)
      (reconnection ⟨realSha256 [1]⟩) := by
  obtain ⟨body, hbody⟩ := reasonCodec_rawBytes_quit quitReceived
  obtain ⟨s, hrun, hmem⟩ := exec_reconnection ⟨realSha256 []⟩ ⟨realSha256 [1]⟩ hbody
  rw [← removals_have_quits_iff_no_late_insert reasonCodec_rawBytes_quit _ hrun]
  intro hall
  obtain ⟨q, hq⟩ := (hall.last hrun).1 _ hmem
  cases hq

end Tewta
