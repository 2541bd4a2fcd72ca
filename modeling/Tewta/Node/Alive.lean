import Tewta.Node.System

/-!
# The read tasks of the pool

Each entry of the pool was inserted with a read task, and `disconnect` takes the
two away together.  What comes from the peer can end the task alone: the end of
the stream (`unwrap`), a frame that is too large (`unimplemented!`), and a packet
of the handshake (`todo!`); so can a failed write of a response (`unwrap`).
`entries_alive_iff_survives` says that this list is complete: along any run, every
entry has a task that is alive in every state, if and only if no task of an entry
is polled on one of the four.  `entry_outlives_its_task` is a run that ends with a
dead entry.
-/

namespace Tewta

open Framing Transition NodeState ReadTask

variable {codec : Codec Bytes}

namespace NodeState

/-- Every connection of the pool has a read task that is alive. -/
def AllAlive (s : NodeState) : Prop :=
  ∀ (n : PeerID) (peer : PeerInfo), s.pool.connections[n]? = some peer →
    (s.tasks peer.readStreamTask).isAlive = true

/-- What ends a read task in its next section: a frame that is too large, the end
of the stream where more of a frame is due, a packet of the handshake, or a
response that cannot be written. -/
def Fatal (codec : Codec Bytes) (s : NodeState) (writes : Bool) : ReadTask → Prop
  | .reading _ stream got =>
    parse maxPacketSize got = .tooLarge ∨
      (parse maxPacketSize got = .incomplete ∧ s.inbound stream = [] ∧ s.closed stream = true)
  | .handling _ _ (.start p) => p.isHandshake = true
  | .handling _ _ (.reply response _) =>
    writes = false ∧ ∃ body, codec.rawBytes response = .ok body
  | .handling _ _ (.disconnecting .quitting _) =>
    writes = false ∧ ∃ body, codec.rawBytes (.quit quitReceived) = .ok body
  | _ => False

/-- No read task of a connection of the pool is polled on what ends it. -/
def Survives (codec : Codec Bytes) (s : NodeState) : NodeLabel → Prop
  | .poll t writes _ =>
    (∃ (n : PeerID) (peer : PeerInfo), s.pool.connections[n]? = some peer ∧
      peer.readStreamTask = t) → ¬ s.Fatal codec writes (s.tasks t)
  | _ => True

end NodeState

/-- The read task reads from the given peer. -/
def ReadTask.ReadsFrom (n : PeerID) : ReadTask → Prop
  | .reading m _ _ => m = n
  | .handling m _ _ => m = n
  | _ => False

@[simp] theorem ReadTask.readsFrom_resume {m n : PeerID} {stream : StreamId} {handler : Handler} :
    (ReadTask.resume m stream handler).ReadsFrom n ↔ m = n := by
  cases handler <;> rfl

theorem ReadTask.ReadsFrom.isAlive {n : PeerID} {task : ReadTask} (h : task.ReadsFrom n) :
    task.isAlive = true := by
  cases task with
  | reading => rfl
  | handling => rfl
  | _ => cases h

theorem ReadTask.ReadsFrom.unique {m n : PeerID} {task : ReadTask} (hm : task.ReadsFrom m)
    (hn : task.ReadsFrom n) : m = n := by
  cases task with
  | reading => exact hm.symm.trans hn
  | handling => exact hm.symm.trans hn
  | _ => cases hm

/-! ### What panics -/

section Panic

variable {s : NodeState} {n : PeerID} {writes : Bool}

theorem sendPacketUnchecked_eq_none_iff (codec : Codec Bytes) (s : NodeState) (n : PeerID)
    (writes : Bool) (p : Packet) :
    s.sendPacketUnchecked codec n p writes = none ↔
      writes = false ∧ (∃ body, codec.rawBytes p = .ok body) ∧
        ∃ peer, s.pool.connections[n]? = some peer := by
  rw [sendPacketUnchecked]
  cases codec.rawBytes p with
  | error e => simp
  | ok body =>
    cases s.pool.connections[n]? with
    | none => simp
    | some peer => cases writes <;> simp

/-- **A section of `on_packet` panics** on a packet of the handshake and on a
response that cannot be written, and the assertion of `send_packet` guards
against a response that is a Quit. -/
theorem handlerSection_eq_none_iff {peer : PeerInfo} (hn : s.pool.connections[n]? = some peer)
    (stream : StreamId) (shuffle : Shuffle) {handler : Handler}
    (hreply : ∀ response p, handler = .reply response p → response.isResponse = true) :
    s.handlerSection codec n writes shuffle handler = none ↔
      s.Fatal codec writes (.handling n stream handler) := by
  cases handler with
  | start p =>
    rw [handlerSection, Fatal, ← onPacket_eq_none_iff s.pool s.dht shuffle p]
    cases onPacket s.pool s.dht shuffle p <;> simp
  | reply response p =>
    have hsend : s.sendPacket codec n response writes =
        s.sendPacketUnchecked codec n response writes := by
      cases response with
      | quit q => cases hreply (.quit q) p rfl
      | _ => rfl
    rw [handlerSection, hsend, Fatal]
    have hiff := sendPacketUnchecked_eq_none_iff codec s n writes response
    simp only [hn, Option.some.injEq, exists_eq', and_true] at hiff
    rw [← hiff]
    cases s.sendPacketUnchecked codec n response writes <;> simp
  | disconnecting stage p =>
    cases stage with
    | quitting =>
      have hiff := sendPacketUnchecked_eq_none_iff codec s n writes (.quit quitReceived)
      simp only [hn, Option.some.injEq, exists_eq', and_true] at hiff
      rw [handlerSection, disconnectSection, Fatal, ← hiff]
      cases s.sendPacketUnchecked codec n (.quit quitReceived) writes <;> simp
    | removing => simp [handlerSection, disconnectSection, hn, Fatal]
    | announcing => simp [handlerSection, disconnectSection, Fatal]
  | _ => simp [handlerSection, Fatal]

end Panic

/-! ### The invariant -/

/-- The read task of an entry reads from that peer, and nobody aborted it. -/
structure AliveInv (s : NodeState) : Prop where
  entries : ∀ (n : PeerID) (peer : PeerInfo), s.pool.connections[n]? = some peer →
    (s.tasks peer.readStreamTask).ReadsFrom n ∧ s.aborted peer.readStreamTask = false
  replies : ∀ t n stream response p, s.tasks t = .handling n stream (.reply response p) →
    response.isResponse = true

namespace AliveInv

variable {s s' : NodeState} {n : PeerID} {peer : PeerInfo}

theorem init (ourPeerId : PeerID) : AliveInv (NodeState.init ourPeerId) where
  entries n peer hn := by simp [NodeState.init, ConnectionPool.new] at hn
  replies t n stream response p h := by cases h

theorem allAlive (inv : AliveInv s) : s.AllAlive :=
  fun n peer hn => (inv.entries n peer hn).1.isAlive

theorem task_injective (inv : AliveInv s) {m : PeerID} {peer' : PeerInfo}
    (hn : s.pool.connections[n]? = some peer) (hm : s.pool.connections[m]? = some peer')
    (h : peer'.readStreamTask = peer.readStreamTask) : m = n :=
  ((inv.entries m peer' hm).1).unique (h ▸ (inv.entries n peer hn).1)

theorem removePeer (inv : AliveInv s) (hn : s.pool.connections[n]? = some peer) :
    AliveInv (s.removePeer n peer) := by
  refine ⟨fun m peer' hm => ?_, inv.replies⟩
  rw [getElem?_removePeer] at hm
  split at hm
  · cases hm
  · rename_i hne
    obtain ⟨hreads, haborted⟩ := inv.entries m peer' hm
    have htask : peer'.readStreamTask ≠ peer.readStreamTask :=
      fun heq => hne (inv.task_injective hn hm heq).symm
    exact ⟨hreads, (Function.update_of_ne htask _ _).trans haborted⟩

theorem disconnectSection (inv : AliveInv s) {quit : QuitPacket} {writes : Bool}
    {stage : Disconnecting} {next : Option Disconnecting}
    (h : s.disconnectSection codec n quit writes stage = some (s', next)) : AliveInv s' := by
  rcases disconnectSection_cases h with ⟨-, -, ⟨rfl, -⟩ | ⟨peer, body, -, -, rfl⟩⟩ |
    ⟨-, ⟨-, -, rfl⟩ | ⟨peer, -, hn, rfl⟩⟩ | ⟨-, -, rfl⟩
  · exact inv
  · exact ⟨inv.entries, inv.replies⟩
  · exact inv
  · exact inv.removePeer hn
  · exact ⟨inv.entries, inv.replies⟩

theorem handlerSection (inv : AliveInv s) {writes : Bool} {shuffle : Shuffle}
    {handler handler' : Handler}
    (h : s.handlerSection codec n writes shuffle handler = some (s', handler')) :
    AliveInv s' := by
  rcases handlerSection_cases h with ⟨⟨dht, fired, rfl⟩, -⟩ |
    ⟨response, p, peer, body, -, -, -, -, -, rfl⟩ | ⟨stage, q, next, -, -, hsec⟩
  · exact ⟨inv.entries, inv.replies⟩
  · exact ⟨inv.entries, inv.replies⟩
  · exact inv.disconnectSection hsec

/-- A read task may move on as long as it reads from its peer, and it may stop
once it belongs to no entry. -/
theorem setTask (inv : AliveInv s) {t : TaskId} {task : ReadTask}
    (hreads : ∀ m peer, s.pool.connections[m]? = some peer → peer.readStreamTask = t →
      task.ReadsFrom m)
    (hreply : ∀ m stream response p, task = .handling m stream (.reply response p) →
      response.isResponse = true) :
    AliveInv (s.setTask t task) := by
  refine ⟨fun m peer' hm => ?_, fun t' m stream response p ht => ?_⟩
  · obtain ⟨hold, haborted⟩ := inv.entries m peer' hm
    refine ⟨?_, haborted⟩
    by_cases heq : peer'.readStreamTask = t
    · rw [heq, tasks_setTask_self]
      exact hreads m peer' hm heq
    · rw [tasks_setTask_of_ne s heq]
      exact hold
  · rcases update_eq_cases ht with ⟨-, htask⟩ | ⟨-, ht⟩
    · exact hreply m stream response p htask
    · exact inv.replies t' m stream response p ht

theorem insertPeer (inv : AliveInv s) (num : Numbered s) (n : PeerID) (addr : String) :
    AliveInv (s.insertPeer codec n addr) := by
  rw [NodeState.insertPeer]
  cases hn : s.pool.connections[n]? with
  | some peer =>
    cases codec.rawBytes (.quit alreadyConnected) with
    | error e => exact ⟨inv.entries, inv.replies⟩
    | ok body => exact ⟨inv.entries, inv.replies⟩
  | none =>
    have hspawn : AliveInv (s.setTask s.next (.reading n s.next [])) :=
      inv.setTask (fun m peer hm heq => absurd heq (num.entries m peer hm).2.ne) (by simp)
    refine ⟨fun m peer hm => ?_, hspawn.replies⟩
    simp only [ConnectionPool.getElem?_insert] at hm
    split at hm
    · rename_i heq
      cases hm
      refine ⟨?_, num.aborted s.next (le_refl _)⟩
      rw [tasks_setTask_self]
      exact heq
    · exact hspawn.entries m peer hm

/-- **A poll that is not fatal keeps the invariant.** -/
theorem pollTask (inv : AliveInv s) {t : TaskId} {writes : Bool} {shuffle : Shuffle}
    (hl : s.Survives codec (.poll t writes shuffle))
    (h : s.pollTask codec t writes shuffle = some s') : AliveInv s' := by
  have hpanic : s.Fatal codec writes (s.tasks t) → AliveInv (s.setTask t .panicked) :=
    fun hfatal => inv.setTask (fun m peer hm heq => absurd hfatal (hl ⟨m, peer, hm, heq⟩))
      (by simp)
  rcases pollTask_cases h with ⟨n, stream, got, ht, hcase⟩ | ⟨n, stream, handler, ht, hcase⟩
  · have hreads : ∀ m peer, s.pool.connections[m]? = some peer → peer.readStreamTask = t →
        n = m := by
      intro m peer hm heq
      have hold := (inv.entries m peer hm).1
      rw [heq, ht] at hold
      exact hold
    rw [ht] at hpanic
    rcases hcase with ⟨b, rest, -, -, rfl⟩ | ⟨hparse, hin, hclosed, rfl⟩ | ⟨hparse, rfl⟩ |
      ⟨_, _, handler, -, hstart, rfl⟩
    · have hread : AliveInv { s with inbound := Function.update s.inbound stream rest } :=
        ⟨inv.entries, inv.replies⟩
      exact hread.setTask hreads (by simp)
    · exact hpanic (Or.inr ⟨hparse, hin, hclosed⟩)
    · exact hpanic (Or.inl hparse)
    · refine inv.setTask (fun m peer hm heq => readsFrom_resume.mpr (hreads m peer hm heq)) ?_
      rcases hstart with ⟨e, -, rfl⟩ | ⟨p, -, rfl⟩ <;> simp [ReadTask.resume]
  · rcases hcase with ⟨hsec, rfl⟩ | ⟨u, handler', hsec, rfl⟩
    · refine inv.setTask (fun m peer hm heq => ?_) (by simp)
      have hold := (inv.entries m peer hm).1
      rw [heq, ht] at hold
      obtain rfl : n = m := hold
      rw [handlerSection_eq_none_iff hm stream shuffle] at hsec
      · exact absurd (ht ▸ hsec) (hl ⟨n, peer, hm, heq⟩)
      · intro response p hreply
        exact inv.replies t n stream response p (ht.trans (by rw [hreply]))
    · refine (inv.handlerSection hsec).setTask (fun m peer hm heq => ?_) ?_
      · have hold := ((inv.handlerSection hsec).entries m peer hm).1
        rw [heq, (tasks_handlerSection hsec).1, ht] at hold
        exact readsFrom_resume.mpr hold
      · intro m stream' response p hreply
        cases handler' with
        | reply response' p' =>
          cases hreply
          exact (handlerSection_stop hsec).2 response p rfl
        | _ => cases hreply

theorem step (inv : AliveInv s) (num : Numbered s) {l : NodeLabel} (hl : s.Survives codec l)
    (h : s.step codec l = some s') : AliveInv s' := by
  cases step_cases h with
  | insert => exact inv.insertPeer num _ _
  | outside => exact ⟨inv.entries, inv.replies⟩
  | call => exact ⟨inv.entries, inv.replies⟩
  | disconnect _ hsec =>
    have hinv := inv.disconnectSection hsec
    exact ⟨hinv.entries, hinv.replies⟩
  | disconnectEnds => exact ⟨inv.entries, inv.replies⟩
  | poll hpoll => exact inv.pollTask hl hpoll
  | cancel haborted _ =>
    refine inv.setTask (fun m peer hm heq => ?_) (by simp)
    rw [← heq, (inv.entries m peer hm).2] at haborted
    cases haborted
  | send => exact ⟨inv.entries, inv.replies⟩

theorem pollTask_of_fatal (inv : AliveInv s) {t : TaskId} {writes : Bool} {shuffle : Shuffle}
    (hn : s.pool.connections[n]? = some peer) (ht : peer.readStreamTask = t)
    (hfatal : s.Fatal codec writes (s.tasks t))
    (h : s.pollTask codec t writes shuffle = some s') : s' = s.setTask t .panicked := by
  rcases pollTask_cases h with ⟨m, stream, got, htask, hcase⟩ | ⟨m, stream, handler, htask, hcase⟩
  · rw [htask] at hfatal
    rcases hcase with ⟨b, rest, hin, hparse, -⟩ | ⟨-, -, -, hs⟩ | ⟨-, hs⟩ |
      ⟨body, rest, handler, hparse, -⟩
    · rcases hfatal with hlarge | ⟨-, hnil, -⟩
      · rw [hparse] at hlarge
        cases hlarge
      · rw [hin] at hnil
        cases hnil
    · exact hs
    · exact hs
    · rcases hfatal with hlarge | ⟨hinc, -⟩
      · rw [hparse] at hlarge
        cases hlarge
      · rw [hparse] at hinc
        cases hinc
  · rcases hcase with ⟨-, hs⟩ | ⟨u, handler', hsec, -⟩
    · exact hs
    · have hreads := (inv.entries n peer hn).1
      rw [ht, htask] at hreads
      obtain rfl : m = n := hreads
      rw [htask, ← handlerSection_eq_none_iff hn stream shuffle
        fun response p hreply => inv.replies t m stream response p
          (htask.trans (by rw [hreply]))] at hfatal
      rw [hfatal] at hsec
      cases hsec

/-- **A fatal poll leaves a dead entry.** -/
theorem not_allAlive (inv : AliveInv s) {l : NodeLabel} (hl : ¬ s.Survives codec l)
    (h : s.step codec l = some s') : ¬ s'.AllAlive := by
  cases l with
  | poll t writes shuffle =>
    obtain ⟨⟨n, peer, hn, ht⟩, hfatal⟩ := Classical.not_imp.mp hl
    obtain rfl := inv.pollTask_of_fatal hn ht (not_not.mp hfatal) h
    intro hall
    have halive := hall n peer hn
    rw [ht, tasks_setTask_self] at halive
    cases halive
  | _ => exact absurd (by trivial) hl

end AliveInv

/-! ### Runs -/

/-- **Every entry is alive exactly as long as no read task of an entry is polled
on what ends it**, whatever the peers send and whoever calls what in which
order. -/
theorem entries_alive_iff_survives (codec : Codec Bytes) (ourPeerId : PeerID)
    {labels : List NodeLabel} {s : NodeState}
    (hrun : exec (NodeState.step codec) (.init ourPeerId) labels = some s) :
    Always (NodeState.step codec) AllAlive (.init ourPeerId) labels ↔
      Meets (NodeState.step codec) (Survives codec) (.init ourPeerId) labels := by
  refine always_iff_meets (I := fun s => AliveInv s ∧ Numbered s) ?_ ?_ ?_ hrun
    ⟨.init ourPeerId, .init ourPeerId⟩
  · intro s l t ⟨inv, num⟩ hok hl
    exact ⟨inv.step num hok hl, num.step hl⟩
  · intro s ⟨inv, _⟩
    exact inv.allAlive
  · intro s l t ⟨inv, _⟩ hbad hl
    exact inv.not_allAlive hbad hl

/-! ### A dead entry -/

/-- A peer connects and hangs up without a Quit. -/
def hangUp (n : PeerID) : List NodeLabel :=
  [.insert n "local-1", .close 0, .poll 0 true ⟨id, Shuffle.perm_id⟩]

theorem exec_hangUp (codec : Codec Bytes) (ourPeerId n : PeerID) :
    ∃ s, exec (NodeState.step codec) (.init ourPeerId) (hangUp n) = some s ∧
      s.pool.connections[n]? = some ⟨"local-1", 0, none, 0⟩ ∧ s.tasks 0 = .panicked := by
  have hparse : parse maxPacketSize [] = .incomplete := rfl
  simp [hangUp, exec_cons, NodeState.step, NodeState.insertPeer, NodeState.init,
    ConnectionPool.new, NodeState.pollTask, NodeState.setTask, hparse,
    ConnectionPool.getElem?_insert]

/-- **An entry outlives its read task.** -/
theorem entry_outlives_its_task :
    ∃ s, exec (NodeState.step (listCodec [])) (.init ⟨realSha256 []⟩)
      (hangUp ⟨realSha256 [1]⟩) = some s ∧ ¬ s.AllAlive := by
  obtain ⟨s, hrun, hn, ht⟩ := exec_hangUp (listCodec []) ⟨realSha256 []⟩ ⟨realSha256 [1]⟩
  refine ⟨s, hrun, fun hall => ?_⟩
  have halive := hall _ _ hn
  rw [ht] at halive
  cases halive

/-- The end of the stream was fatal in that run. -/
theorem entries_alive_iff_survives_hangUp :
    ¬ Meets (NodeState.step (listCodec [])) (Survives (listCodec [])) (.init ⟨realSha256 []⟩)
      (hangUp ⟨realSha256 [1]⟩) := by
  obtain ⟨s, hrun, hn, ht⟩ := exec_hangUp (listCodec []) ⟨realSha256 []⟩ ⟨realSha256 [1]⟩
  rw [← entries_alive_iff_survives (listCodec []) _ hrun]
  intro hall
  have halive := hall.last hrun _ _ hn
  rw [ht] at halive
  cases halive

end Tewta
