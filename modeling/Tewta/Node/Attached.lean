import Tewta.Node.Disconnect
import Tewta.Node.Reading

/-!
# A node and one of its connections

`Attached` says how a node stands with one connection of a peer, whatever else it does: the
entry of the peer is this connection until it is removed, nobody else uses its stream, and a
Quit has been written on it before it is removed.  It needs of the others only what `Civil`
asks: that writes to the peer do not fail, and that what is written there is what its read
task can take.

The other end is a read task that has to do with many packets and many Quits, and whose entry
may be removed by somebody else.  `Attending` is what is left of `ReadsPackets` for it.
-/

namespace Tewta

open Framing Transition NodeState

variable {codec : Codec Bytes}

/-- The read task takes its bytes from a stream. -/
def ReadTask.ReadsOn (stream : StreamId) : ReadTask → Prop
  | .reading _ stream' _ => stream' = stream
  | .handling _ stream' _ => stream' = stream
  | _ => False

@[simp] theorem ReadTask.readsOn_resume {n : PeerID} {stream stream' : StreamId}
    {handler : Handler} : (ReadTask.resume n stream' handler).ReadsOn stream ↔ stream' = stream := by
  cases handler <;> rfl

/-- What comes and goes on a stream is left to the other end, writes to the peer do not fail,
and they are packets that its read task can take. -/
def NodeState.Civil (codec : Codec Bytes) (n : PeerID) (stream : StreamId) (s : NodeState) :
    NodeLabel → Prop
  | .arrive stream' _ => stream' ≠ stream
  | .close stream' => stream' ≠ stream
  | .callDisconnect _ m quit => m = n → Carried codec (.quit quit)
  | .disconnect d writes => ∀ quit stage, s.disconnects d = .running n quit stage → writes = true
  | .poll t writes _ => ∀ stream' handler, s.tasks t = .handling n stream' handler →
      writes = true ∧ ∀ response p, handler = .reply response p → Carried codec response
  | .send m p writes => m = n → writes = true ∧ Carried codec p
  | _ => True

/-- **A connection of a peer**, until it is removed and after that. -/
structure Attached (codec : Codec Bytes) (n : PeerID) (stream : StreamId) (s : NodeState) :
    Prop where
  numbered : Numbered s
  lt : stream < s.next
  entry : s.aborted stream = false → ∃ peer, s.pool.connections[n]? = some peer ∧
    peer.writeStream = stream ∧ peer.readStreamTask = stream
  only : ∀ (m : PeerID) (peer : PeerInfo), s.pool.connections[m]? = some peer →
    peer.writeStream = stream ∨ peer.readStreamTask = stream → m = n ∧ s.aborted stream = false
  own : ∀ t, (s.tasks t).ReadsOn stream → t = stream
  removing : s.Removing n → s.aborted stream = false → s.HasQuit stream
  quit : s.aborted stream = true → s.HasQuit stream
  carried : ∀ p ∈ s.written stream, Carried codec p
  calls : ∀ d quit stage, s.disconnects d = .running n quit stage → Carried codec (.quit quit)

/-- What is written stays, and nothing follows once the connection is removed. -/
structure Grows (stream : StreamId) (s s' : NodeState) : Prop where
  written : s.written stream <+: s'.written stream
  gone : s.aborted stream = true →
    s'.aborted stream = true ∧ s'.written stream = s.written stream

theorem Grows.of_eq {stream : StreamId} {s s' : NodeState}
    (hwritten : s'.written stream = s.written stream)
    (haborted : s'.aborted stream = s.aborted stream) : Grows stream s s' :=
  ⟨hwritten ▸ List.prefix_refl _, fun h => ⟨haborted.trans h, hwritten⟩⟩

namespace Attached

variable {s s' : NodeState} {n m : PeerID} {stream : StreamId} {peer : PeerInfo} {writes : Bool}

theorem aborted_of_none (att : Attached codec n stream s)
    (hn : s.pool.connections[n]? = none) : s.aborted stream = true := by
  by_contra ha
  obtain ⟨peer, hpeer, -⟩ := att.entry (by simpa using ha)
  rw [hn] at hpeer
  cases hpeer

theorem wrote (att : Attached codec n stream s) (hm : s.pool.connections[m]? = some peer)
    {p : Packet} (hp : m = n → Carried codec p) :
    Attached codec n stream (s.wrote peer.writeStream p) ∧
      Grows stream s (s.wrote peer.writeStream p) := by
  by_cases hstream : peer.writeStream = stream
  · obtain ⟨hmn, halive⟩ := att.only m peer hm (Or.inl hstream)
    have hwritten : (s.wrote peer.writeStream p).written stream = s.written stream ++ [p] := by
      rw [hstream]
      exact Function.update_self _ _ _
    refine ⟨⟨att.numbered.wrote hm p, att.lt, att.entry, att.only, att.own,
      fun h ha => (att.removing h ha).wrote _ _, fun ha => (att.quit ha).wrote _ _, ?_,
      att.calls⟩, ?_, fun ha => ?_⟩
    · intro p' hp'
      rw [hwritten] at hp'
      rcases List.mem_append.mp hp' with hp' | hp'
      · exact att.carried p' hp'
      · rw [List.mem_singleton.mp hp']
        exact hp hmn
    · rw [hwritten]
      exact List.prefix_append _ _
    · rw [halive] at ha
      cases ha
  · have hwritten : (s.wrote peer.writeStream p).written stream = s.written stream :=
      Function.update_of_ne (Ne.symm hstream) _ _
    refine ⟨⟨att.numbered.wrote hm p, att.lt, att.entry, att.only, att.own,
      fun h ha => (att.removing h ha).wrote _ _, fun ha => (att.quit ha).wrote _ _, ?_,
      att.calls⟩, .of_eq hwritten rfl⟩
    intro p' hp'
    rw [hwritten] at hp'
    exact att.carried p' hp'

theorem removePeer (att : Attached codec n stream s) (hm : s.pool.connections[m]? = some peer)
    (hquit : m = n → s.aborted stream = false → s.HasQuit stream) :
    Attached codec n stream (s.removePeer m peer) ∧ Grows stream s (s.removePeer m peer) := by
  have halive : ∀ {t}, (s.removePeer m peer).aborted t = false →
      t ≠ peer.readStreamTask ∧ s.aborted t = false := by
    intro t ha
    rcases update_eq_cases ha with ⟨-, ha⟩ | ⟨hne, ha⟩
    · cases ha
    · exact ⟨hne, ha⟩
  refine ⟨⟨att.numbered.removePeer hm, att.lt, fun ha => ?_, fun m' peer' hm' huses => ?_, att.own,
    fun h ha => att.removing h (halive ha).2, fun ha => ?_, att.carried, att.calls⟩,
    List.prefix_refl _, fun ha => ⟨?_, rfl⟩⟩
  · obtain ⟨hne, ha⟩ := halive ha
    obtain ⟨peer', hn, hwrite, htask⟩ := att.entry ha
    refine ⟨peer', ?_, hwrite, htask⟩
    rw [getElem?_removePeer, if_neg, hn]
    rintro rfl
    rw [hm] at hn
    cases hn
    exact hne htask.symm
  · rw [getElem?_removePeer] at hm'
    split at hm'
    · cases hm'
    · rename_i hne
      obtain ⟨rfl, ha⟩ := att.only m' peer' hm' huses
      refine ⟨rfl, (Function.update_of_ne (fun heq => hne ?_) _ _).trans ha⟩
      exact (att.only m peer hm (Or.inr heq.symm)).1
  · rcases update_eq_cases ha with ⟨heq, -⟩ | ⟨-, ha⟩
    · obtain ⟨hmn, ha⟩ := att.only m peer hm (Or.inr heq.symm)
      exact hquit hmn ha
    · exact att.quit ha
  · show Function.update s.aborted _ true stream = true
    rw [Function.update_apply, ha, ite_self]

theorem disconnectSection (att : Attached codec n stream s) {quit : QuitPacket}
    {stage : Disconnecting} {next : Option Disconnecting}
    (h : s.disconnectSection codec m quit writes stage = some (s', next))
    (hcarried : m = n → Carried codec (.quit quit)) (hstage : stage = .removing → s.Removing m) :
    Attached codec n stream s' ∧ Grows stream s s' ∧
      (next = some .removing → m = n → s'.aborted stream = false → s'.HasQuit stream) := by
  rcases disconnectSection_cases h with ⟨-, -, ⟨rfl, hnone⟩ | ⟨peer, body, -, hm, rfl⟩⟩ |
    ⟨hremoving, ⟨rfl, -, rfl⟩ | ⟨peer, rfl, hm, rfl⟩⟩ | ⟨-, rfl, rfl⟩
  · refine ⟨att, .of_eq rfl rfl, fun _ hmn ha => ?_⟩
    rcases hnone with ⟨e, he⟩ | hnone
    · rw [(hcarried hmn).rawBytes.1] at he
      cases he
    · rw [att.aborted_of_none (hmn ▸ hnone)] at ha
      cases ha
  · obtain ⟨hatt, hgrows⟩ := att.wrote hm hcarried
    refine ⟨hatt, hgrows, fun _ hmn ha => ⟨quit, ?_⟩⟩
    obtain ⟨peer', hn, hwrite, -⟩ := att.entry ha
    subst hmn
    rw [hm] at hn
    cases hn
    rw [← hwrite]
    exact mem_wrote_self s _ _
  · exact ⟨att, .of_eq rfl rfl, by simp⟩
  · obtain ⟨hatt, hgrows⟩ := att.removePeer hm fun hmn ha =>
      att.removing (hmn ▸ hstage hremoving) ha
    exact ⟨hatt, hgrows, by simp⟩
  · exact ⟨⟨att.numbered.disconnectSection h, att.lt, att.entry, att.only, att.own, att.removing,
      att.quit, att.carried, att.calls⟩, .of_eq rfl rfl, by simp⟩

theorem handlerSection (att : Attached codec n stream s)
    (hquit : Carried codec (.quit quitReceived)) {shuffle : Shuffle} {handler handler' : Handler}
    (h : s.handlerSection codec m writes shuffle handler = some (s', handler'))
    (hreply : m = n → ∀ response p, handler = .reply response p → Carried codec response)
    (hstage : ∀ q, handler = .disconnecting .removing q → s.Removing m) :
    Attached codec n stream s' ∧ Grows stream s s' ∧ ∀ q, handler' = .disconnecting .removing q →
      m = n → s'.aborted stream = false → s'.HasQuit stream := by
  rcases handlerSection_cases h with ⟨⟨dht, fired, rfl⟩, -, hne⟩ |
    ⟨response, p, peer, body, rfl, rfl, -, -, hm, rfl⟩ | ⟨stage, q', next, rfl, rfl, hsec⟩
  · exact ⟨⟨att.numbered.handlerSection h, att.lt, att.entry, att.only, att.own, att.removing,
      att.quit, att.carried, att.calls⟩, .of_eq rfl rfl, fun q hq => absurd hq (hne q)⟩
  · obtain ⟨hatt, hgrows⟩ := att.wrote hm fun hmn => hreply hmn response p rfl
    exact ⟨hatt, hgrows, by simp⟩
  · obtain ⟨hatt, hgrows, hhas⟩ := att.disconnectSection hsec (fun _ => hquit)
      fun hst => hstage q' (by rw [hst])
    refine ⟨hatt, hgrows, fun q hq => ?_⟩
    cases next with
    | none => cases hq
    | some stage' =>
      cases hq
      exact hhas rfl

theorem setTask (att : Attached codec n stream s) {t : TaskId} {task : ReadTask}
    (hlt : t < s.next) (hown : task.ReadsOn stream → t = stream)
    (hremoving : ∀ stream' q, task = .handling n stream' (.disconnecting .removing q) →
      s.aborted stream = false → s.HasQuit stream) : Attached codec n stream (s.setTask t task) := by
  refine ⟨att.numbered.setTask hlt task, att.lt, att.entry, att.only, fun t' ht' => ?_,
    fun h ha => ?_, att.quit, att.carried, att.calls⟩
  · by_cases heq : t' = t
    · subst heq
      rw [tasks_setTask_self] at ht'
      exact hown ht'
    · rw [tasks_setTask_of_ne s heq] at ht'
      exact att.own t' ht'
  · rcases h with hd | ⟨t', stream', q, ht'⟩
    · exact att.removing (Or.inl hd) ha
    · rcases update_eq_cases ht' with ⟨-, htask⟩ | ⟨-, ht'⟩
      · exact hremoving stream' q htask ha
      · exact att.removing (Or.inr ⟨t', stream', q, ht'⟩) ha

theorem setDisconnect (att : Attached codec n stream s) {d : ℕ} {call : DisconnectCall}
    (hremoving : ∀ q, call = .running n q .removing → s.aborted stream = false →
      s.HasQuit stream)
    (hcarried : ∀ q stage, call = .running n q stage → Carried codec (.quit q)) :
    Attached codec n stream (s.setDisconnect d call) := by
  refine ⟨att.numbered.setDisconnect d call, att.lt, att.entry, att.only, att.own, fun h ha => ?_,
    att.quit, att.carried, fun d' q stage hd => ?_⟩
  · rcases h with ⟨d', q, hd⟩ | ht
    · rcases update_eq_cases hd with ⟨-, hcall⟩ | ⟨-, hd⟩
      · exact hremoving q hcall ha
      · exact att.removing (Or.inl ⟨d', q, hd⟩) ha
    · exact att.removing (Or.inr ht) ha
  · rcases update_eq_cases hd with ⟨-, hcall⟩ | ⟨-, hd⟩
    · exact hcarried q stage hcall
    · exact att.calls d' q stage hd

theorem insertPeer (att : Attached codec n stream s) (m : PeerID) (addr : String) :
    Attached codec n stream (s.insertPeer codec m addr) ∧
      Grows stream s (s.insertPeer codec m addr) := by
  have hne : stream ≠ s.next := att.lt.ne
  obtain ⟨htask, hwritten⟩ := insertPeer_of_ne codec m addr hne
  obtain ⟨hnext, -, -, haborted⟩ := insertPeer_next codec s m addr
  have hnum : Numbered (s.insertPeer codec m addr) := att.numbered.insertPeer m addr
  refine ⟨?_, .of_eq hwritten (congrFun haborted stream)⟩
  have hlt : stream < (s.insertPeer codec m addr).next := hnext ▸ Nat.lt_succ_of_lt att.lt
  have hquits : (s.insertPeer codec m addr).HasQuit stream ↔ s.HasQuit stream := by
    rw [NodeState.HasQuit, NodeState.HasQuit, hwritten]
  cases hm : s.pool.connections[m]? with
  | some peer =>
    have hsame : (s.insertPeer codec m addr).pool = s.pool ∧
        (s.insertPeer codec m addr).tasks = s.tasks ∧
        (s.insertPeer codec m addr).disconnects = s.disconnects := by
      simp only [NodeState.insertPeer, hm]
      split <;> exact ⟨rfl, rfl, rfl⟩
    obtain ⟨hpool, htasks, hcalls⟩ := hsame
    refine ⟨hnum, hlt, ?_, ?_, ?_, ?_, ?_, ?_, ?_⟩
    · rw [hpool, haborted]
      exact att.entry
    · rw [hpool, haborted]
      exact att.only
    · rw [htasks]
      exact att.own
    · rw [hquits, haborted]
      intro h
      refine att.removing ?_
      rwa [Removing, hcalls, htasks] at h
    · rw [hquits, haborted]
      exact att.quit
    · rw [hwritten]
      exact att.carried
    · rw [hcalls]
      exact att.calls
  | none =>
    -- the peer is another one, or its connection was removed before
    have hother : s.aborted stream = false → m ≠ n := by
      rintro ha rfl
      rw [att.aborted_of_none hm] at ha
      cases ha
    have hnew := insertPeer_of_none codec addr hm
    refine ⟨hnum, hlt, fun ha => ?_, fun m' peer' hm' huses => ?_, fun t ht => ?_, fun h ha => ?_,
      ?_, ?_, ?_⟩
    · rw [haborted] at ha
      obtain ⟨peer, hn, hwrite, htask⟩ := att.entry ha
      refine ⟨peer, ?_, hwrite, htask⟩
      rw [hnew]
      show (s.pool.insert m _).connections[n]? = some peer
      rw [ConnectionPool.getElem?_insert, if_neg (hother ha), hn]
    · rw [haborted]
      rw [hnew] at hm'
      have hm'' : (s.pool.insert m _).connections[m']? = some peer' := hm'
      rw [ConnectionPool.getElem?_insert] at hm''
      split at hm''
      · cases hm''
        rcases huses with huses | huses
        · exact absurd huses.symm hne
        · exact absurd huses.symm hne
      · exact att.only m' peer' hm'' huses
    · rw [hnew] at ht
      by_cases heq : t = s.next
      · subst heq
        have hself : (s.setTask s.next (.reading m s.next [])).tasks s.next =
            .reading m s.next [] := tasks_setTask_self _ _ _
        have ht' : ((s.setTask s.next (.reading m s.next [])).tasks s.next).ReadsOn stream := ht
        rw [hself] at ht'
        exact ht'
      · refine att.own t ?_
        rwa [← tasks_setTask_of_ne s heq (.reading m s.next [])]
    · rw [haborted] at ha
      refine hquits.mpr (att.removing ?_ ha)
      rw [hnew] at h
      rcases h with hd | ⟨t, stream', q, ht⟩
      · exact Or.inl hd
      · rcases update_eq_cases ht with ⟨-, htask'⟩ | ⟨-, ht⟩
        · cases htask'
        · exact Or.inr ⟨t, stream', q, ht⟩
    · rw [hquits, haborted]
      exact att.quit
    · rw [hwritten]
      exact att.carried
    · rw [hnew]
      exact att.calls

theorem pollTask (att : Attached codec n stream s) (hquit : Carried codec (.quit quitReceived))
    {t : TaskId} {shuffle : Shuffle} (hcivil : s.Civil codec n stream (.poll t writes shuffle))
    (h : s.pollTask codec t writes shuffle = some s') :
    Attached codec n stream s' ∧ Grows stream s s' := by
  have hlt : s.tasks t ≠ .notSpawned → t < s.next := att.numbered.lt_of_task
  rcases pollTask_cases h with ⟨m, stream', got, ht, hcase⟩ | ⟨m, stream', handler, ht, hcase⟩
  · have hown : stream' = stream → t = stream := fun heq => att.own t (by rw [ht]; exact heq)
    have hlt := hlt (by rw [ht]; simp)
    rcases hcase with ⟨b, rest, -, -, rfl⟩ | ⟨-, -, -, rfl⟩ | ⟨-, rfl⟩ |
      ⟨_, _, handler, -, hstart, rfl⟩
    · have hread : Attached codec n stream
          { s with inbound := Function.update s.inbound stream' rest } :=
        ⟨⟨att.numbered.entries, att.numbered.tasks, att.numbered.aborted, att.numbered.written⟩,
          att.lt, att.entry, att.only, att.own, att.removing, att.quit, att.carried, att.calls⟩
      exact ⟨hread.setTask hlt hown (by simp), .of_eq rfl rfl⟩
    · exact ⟨att.setTask hlt (fun h => h.elim) (by simp), .of_eq rfl rfl⟩
    · exact ⟨att.setTask hlt (fun h => h.elim) (by simp), .of_eq rfl rfl⟩
    · refine ⟨att.setTask hlt (fun h => hown (ReadTask.readsOn_resume.mp h)) ?_, .of_eq rfl rfl⟩
      rcases hstart with ⟨e, -, rfl⟩ | ⟨p, -, rfl⟩
      · simp [ReadTask.resume]
      · simp [ReadTask.resume]
  · have hown : stream' = stream → t = stream := fun heq => att.own t (by rw [ht]; exact heq)
    have hlt := hlt (by rw [ht]; simp)
    rcases hcase with ⟨-, rfl⟩ | ⟨u, handler', hsec, rfl⟩
    · exact ⟨att.setTask hlt (fun h => h.elim) (by simp), .of_eq rfl rfl⟩
    · obtain ⟨hatt, hgrows, hhas⟩ := att.handlerSection hquit hsec
        (fun hmn => (hcivil stream' handler (by rw [ht, hmn])).2)
        fun q hq => Or.inr ⟨t, stream', q, by rw [ht, hq]⟩
      refine ⟨hatt.setTask ((tasks_handlerSection hsec).2 ▸ hlt)
        (fun h => hown (ReadTask.readsOn_resume.mp h)) fun stream'' q heq => ?_,
        ⟨hgrows.written, hgrows.gone⟩⟩
      cases handler' with
      | disconnecting stage p =>
        cases heq
        exact hhas q rfl rfl
      | _ => cases heq

/-- **What a node does keeps the connection in order**, and removes it only once a Quit is
written on it. -/
theorem step (att : Attached codec n stream s) (hquit : Carried codec (.quit quitReceived))
    {l : NodeLabel} (hcivil : s.Civil codec n stream l) (h : s.step codec l = some s') :
    Attached codec n stream s' ∧ Grows stream s s' := by
  cases step_cases h with
  | insert => exact att.insertPeer _ _
  | outside =>
    exact ⟨⟨⟨att.numbered.entries, att.numbered.tasks, att.numbered.aborted,
      att.numbered.written⟩, att.lt, att.entry, att.only, att.own, att.removing, att.quit,
      att.carried, att.calls⟩, .of_eq rfl rfl⟩
  | call =>
    refine ⟨att.setDisconnect (by simp) fun q stage heq => ?_, .of_eq rfl rfl⟩
    cases heq
    exact hcivil rfl
  | disconnect hd hsec =>
    rename_i d m quit stage u next writes
    obtain ⟨hatt, hgrows, hhas⟩ := att.disconnectSection hsec
      (fun hmn => att.calls d quit stage (by rw [hd, hmn]))
      fun hst => Or.inl ⟨d, quit, by rw [hd, hst]⟩
    refine ⟨hatt.setDisconnect (fun q heq => ?_) fun q stage' heq => ?_,
      ⟨hgrows.written, hgrows.gone⟩⟩
    · cases next with
      | none => cases heq
      | some stage' =>
        cases heq
        exact hhas rfl rfl
    · cases next with
      | none => cases heq
      | some stage'' =>
        cases heq
        exact att.calls d _ stage hd
  | disconnectEnds _ hcall =>
    refine ⟨att.setDisconnect ?_ ?_, .of_eq rfl rfl⟩
    · rcases hcall with rfl | rfl <;> simp
    · rcases hcall with rfl | rfl <;> simp
  | poll hpoll => exact att.pollTask hquit hcivil hpoll
  | cancel _ halive =>
    refine ⟨att.setTask (att.numbered.lt_of_task fun hnone => ?_) (fun h => h.elim) (by simp),
      .of_eq rfl rfl⟩
    rw [hnone] at halive
    cases halive
  | send _ _ hm => exact att.wrote hm fun hmn => (hcivil hmn).2

/-! ### What a step leaves alone -/

theorem inbound_disconnectSection {quit : QuitPacket} {stage : Disconnecting}
    {next : Option Disconnecting}
    (h : s.disconnectSection codec m quit writes stage = some (s', next)) :
    s'.tasks = s.tasks ∧ s'.inbound = s.inbound ∧ s'.closed = s.closed := by
  rcases disconnectSection_cases h with ⟨-, -, ⟨rfl, -⟩ | ⟨peer, body, -, -, rfl⟩⟩ |
    ⟨-, ⟨-, -, rfl⟩ | ⟨peer, -, -, rfl⟩⟩ | ⟨-, -, rfl⟩
  · exact ⟨rfl, rfl, rfl⟩
  · exact ⟨rfl, rfl, rfl⟩
  · exact ⟨rfl, rfl, rfl⟩
  · exact ⟨rfl, rfl, rfl⟩
  · exact ⟨rfl, rfl, rfl⟩

theorem inbound_handlerSection {shuffle : Shuffle} {handler handler' : Handler}
    (h : s.handlerSection codec m writes shuffle handler = some (s', handler')) :
    s'.tasks = s.tasks ∧ s'.inbound = s.inbound ∧ s'.closed = s.closed := by
  rcases handlerSection_cases h with ⟨⟨dht, fired, rfl⟩, -⟩ |
    ⟨response, p, peer, body, -, -, -, -, -, rfl⟩ | ⟨stage, q, next, -, -, hsec⟩
  · exact ⟨rfl, rfl, rfl⟩
  · exact ⟨rfl, rfl, rfl⟩
  · exact inbound_disconnectSection hsec

/-- Is a step one of the read task itself? -/
def IsOwn (stream : StreamId) : NodeLabel → Prop
  | .poll t _ _ => t = stream
  | .cancel t => t = stream
  | _ => False

theorem frame (att : Attached codec n stream s) {l : NodeLabel}
    (hcivil : s.Civil codec n stream l) (hl : ¬ IsOwn stream l) (h : s.step codec l = some s') :
    s'.tasks stream = s.tasks stream ∧ s'.inbound stream = s.inbound stream ∧
      s'.closed stream = s.closed stream := by
  cases l with
  | insert m addr =>
    cases h
    obtain ⟨-, hin, hclosed, -⟩ := insertPeer_next codec s m addr
    exact ⟨(insertPeer_of_ne codec m addr att.lt.ne).1, congrFun hin _, congrFun hclosed _⟩
  | arrive stream' bytes =>
    rw [NodeState.step] at h
    split at h
    · cases h
    · cases h
      exact ⟨rfl, Function.update_of_ne (Ne.symm hcivil) _ _, rfl⟩
  | close stream' =>
    cases h
    exact ⟨rfl, rfl, Function.update_of_ne (Ne.symm hcivil) _ _⟩
  | callDisconnect d m quit =>
    rw [NodeState.step] at h
    split at h
    · cases h
      exact ⟨rfl, rfl, rfl⟩
    · cases h
  | disconnect d writes =>
    rw [NodeState.step] at h
    split at h
    · split at h
      · rename_i hsec
        cases h
        obtain ⟨htasks, hin, hclosed⟩ := inbound_disconnectSection hsec
        exact ⟨congrFun htasks _, congrFun hin _, congrFun hclosed _⟩
      · cases h
        exact ⟨rfl, rfl, rfl⟩
    · cases h
  | dropDisconnect d =>
    rw [NodeState.step] at h
    split at h
    · cases h
      exact ⟨rfl, rfl, rfl⟩
    · cases h
  | poll t writes shuffle =>
    have hne : stream ≠ t := fun heq => hl heq.symm
    rcases pollTask_cases h with ⟨m, stream', got, ht, hcase⟩ | ⟨m, stream', handler, ht, hcase⟩
    · have hne' : stream ≠ stream' := by
        rintro rfl
        exact hne (att.own t (by rw [ht]; rfl)).symm
      rcases hcase with ⟨b, rest, -, -, rfl⟩ | ⟨-, -, -, rfl⟩ | ⟨-, rfl⟩ | ⟨_, _, handler, -, -, rfl⟩
      · exact ⟨tasks_setTask_of_ne _ hne _, Function.update_of_ne hne' _ _, rfl⟩
      · exact ⟨tasks_setTask_of_ne _ hne _, rfl, rfl⟩
      · exact ⟨tasks_setTask_of_ne _ hne _, rfl, rfl⟩
      · exact ⟨tasks_setTask_of_ne _ hne _, rfl, rfl⟩
    · rcases hcase with ⟨-, rfl⟩ | ⟨u, handler', hsec, rfl⟩
      · exact ⟨tasks_setTask_of_ne _ hne _, rfl, rfl⟩
      · obtain ⟨htasks, hin, hclosed⟩ := inbound_handlerSection hsec
        exact ⟨(tasks_setTask_of_ne _ hne _).trans (congrFun htasks _), congrFun hin _,
          congrFun hclosed _⟩
  | cancel t =>
    have hne : stream ≠ t := fun heq => hl heq.symm
    rw [NodeState.step] at h
    split at h
    · cases h
      exact ⟨tasks_setTask_of_ne _ hne _, rfl, rfl⟩
    · cases h
  | send m p writes =>
    cases h
    cases hs : s.sendPacket codec m p writes with
    | none => exact ⟨rfl, rfl, rfl⟩
    | some u =>
      rcases sendPacket_cases hs with rfl | ⟨peer, body, -, -, -, rfl⟩
      · exact ⟨rfl, rfl, rfl⟩
      · exact ⟨rfl, rfl, rfl⟩
  | setDht key value =>
    cases h
    exact ⟨rfl, rfl, rfl⟩

end Attached

/-! ### The read task -/

/-- **A read task and the packets that have arrived**, with any number of Quits among them:
once it has dealt with one its connection is removed, by itself or by somebody else. -/
inductive Attending (codec : Codec Bytes) (s : NodeState) (n : PeerID) (stream : StreamId)
    (packets : List Packet) : Prop
  | reading {got : Bytes} {handled pending : List Packet}
      (task : s.tasks stream = .reading n stream got)
      (split : packets = handled ++ pending)
      (bytes : got ++ s.inbound stream = pending.flatMap (packetFrame codec))
      (within : ∀ p rest, pending = p :: rest → got <+: packetFrame codec p)
      (quit : HasQuit handled → s.aborted stream = true)
  | handling {handler : Handler} {handled pending : List Packet}
      (task : s.tasks stream = .handling n stream handler)
      (split : packets = handled ++ pending)
      (bytes : s.inbound stream = pending.flatMap (packetFrame codec))
      (start : ∀ p, handler = .start p → p.isHandshake = false)
      (reply : ∀ response p, handler = .reply response p → response.isResponse = true)
      (quit : HasQuit handled → handler.isQuitting = true ∨ s.aborted stream = true)
  | ended (task : s.tasks stream = .panicked ∨ s.tasks stream = .cancelled)
      (aborted : s.aborted stream = true)

namespace Attending

variable {s s' : NodeState} {n : PeerID} {stream : StreamId} {packets : List Packet}

theorem congr (h : Attending codec s n stream packets) (htasks : s'.tasks stream = s.tasks stream)
    (hin : s'.inbound stream = s.inbound stream)
    (habort : s.aborted stream = true → s'.aborted stream = true) :
    Attending codec s' n stream packets := by
  cases h with
  | reading task split bytes within quit =>
    exact .reading (htasks.trans task) split (by rw [hin]; exact bytes) within
      fun hq => habort (quit hq)
  | handling task split bytes start reply quit =>
    exact .handling (htasks.trans task) split (hin.trans bytes) start reply
      fun hq => (quit hq).imp_right habort
  | ended task aborted => exact .ended (by rw [htasks]; exact task) (habort aborted)

theorem arrive (h : Attending codec s n stream packets) {p : Packet}
    (htasks : s'.tasks stream = s.tasks stream)
    (hin : s'.inbound stream = s.inbound stream ++ packetFrame codec p)
    (habort : s'.aborted stream = s.aborted stream) :
    Attending codec s' n stream (packets ++ [p]) := by
  cases h with
  | @reading got handled pending task split bytes within quit =>
    have hsplit : packets ++ [p] = handled ++ (pending ++ [p]) := by
      rw [split, List.append_assoc]
    refine .reading (htasks.trans task) hsplit ?_ ?_ (by rw [habort]; exact quit)
    · rw [hin, ← List.append_assoc, bytes]
      simp
    · intro p' rest hcons
      cases pending with
      | nil =>
        have hgot : got = [] := (List.append_eq_nil_iff.mp bytes).1
        rw [hgot]
        exact List.nil_prefix
      | cons p'' pending =>
        cases hcons
        exact within p' pending rfl
  | @handling handler handled pending task split bytes start reply quit =>
    have hsplit : packets ++ [p] = handled ++ (pending ++ [p]) := by
      rw [split, List.append_assoc]
    refine .handling (htasks.trans task) hsplit ?_ start reply (by rw [habort]; exact quit)
    rw [hin, bytes]
    simp
  | ended task aborted =>
    exact .ended (by rw [htasks]; exact task) (habort.trans aborted)

theorem resume {handler : Handler} {handled pending : List Packet}
    (task : s.tasks stream = .resume n stream handler) (split : packets = handled ++ pending)
    (bytes : s.inbound stream = pending.flatMap (packetFrame codec))
    (start : ∀ p, handler = .start p → p.isHandshake = false)
    (reply : ∀ response p, handler = .reply response p → response.isResponse = true)
    (quit : HasQuit handled → handler.isQuitting = true ∨ s.aborted stream = true) :
    Attending codec s n stream packets := by
  cases handler with
  | finished =>
    exact .reading task split bytes (fun _ _ _ => List.nil_prefix) fun hq =>
      (quit hq).resolve_left (by simp [Handler.isQuitting])
  | _ => exact .handling task split bytes start reply quit

/-- A task that reads takes the next byte or the next packet.  At the end of the stream it has
dealt with a Quit. -/
theorem pollTask_reading {got : Bytes} {handled pending : List Packet} {writes : Bool}
    {shuffle : Shuffle}
    (hdec : ∀ p body, codec.rawBytes p = .ok body → codec.fromRawBytes body = .ok p)
    (hcarried : ∀ p ∈ packets, Carried codec p)
    (hclosed : s.closed stream = true → HasQuit packets)
    (task : s.tasks stream = .reading n stream got) (split : packets = handled ++ pending)
    (bytes : got ++ s.inbound stream = pending.flatMap (packetFrame codec))
    (within : ∀ p rest, pending = p :: rest → got <+: packetFrame codec p)
    (quit : HasQuit handled → s.aborted stream = true)
    (h : s.pollTask codec stream writes shuffle = some s') :
    Attending codec s' n stream packets := by
  have hpending : ∀ p ∈ pending, Carried codec p :=
    fun p hp => hcarried p (split ▸ List.mem_append_right handled hp)
  have hgot := parse_got hpending bytes within
  rcases pollTask_cases h with ⟨n', stream', got', ht, hcase⟩ | ⟨n', stream', handler, ht, -⟩
  · rw [task] at ht
    cases ht
    rcases hcase with ⟨b, rest, hin, hparse, rfl⟩ | ⟨hparse, hin, hcl, rfl⟩ | ⟨hparse, rfl⟩ |
      ⟨body, rest, handler, hparse, hhandler, rfl⟩
    · rcases hgot with ⟨-, hnext⟩ | ⟨p, ps, -, -, hcomplete⟩
      · rw [hin] at bytes
        have hrest : (Function.update s.inbound stream rest) stream = rest :=
          Function.update_self _ _ _
        refine .reading (tasks_setTask_self _ _ (.reading n stream (got ++ [b]))) split ?_ ?_ quit
        · rw [← bytes]
          exact (congrArg (fun r => (got ++ [b]) ++ r) hrest).trans (by simp)
        · intro p ps hcons
          rcases hnext with ⟨rfl, -⟩ | ⟨p', ps', rfl, hlt⟩
          · cases hcons
          · cases hcons
            have hread : got ++ [b] <+: got ++ b :: rest := ⟨rest, by simp⟩
            refine List.prefix_of_prefix_length_le hread ⟨_, bytes.symm⟩ ?_
            rw [List.length_append, List.length_singleton]
            exact hlt
      · rw [hparse] at hcomplete
        cases hcomplete
    · rcases hgot with ⟨-, ⟨rfl, -⟩ | ⟨p, ps, rfl, hlt⟩⟩ | ⟨p, ps, -, -, hcomplete⟩
      · rw [List.append_nil] at split
        exact .ended (Or.inl (tasks_setTask_self s stream _)) (quit (split ▸ hclosed hcl))
      · rw [hin, List.append_nil, List.flatMap_cons] at bytes
        rw [bytes, List.length_append] at hlt
        omega
      · rw [hparse] at hcomplete
        cases hcomplete
    · rcases hgot with ⟨hinc, -⟩ | ⟨p, ps, -, -, hcomplete⟩
      · rw [hparse] at hinc
        cases hinc
      · rw [hparse] at hcomplete
        cases hcomplete
    · rcases hgot with ⟨hinc, -⟩ | ⟨p, ps, rfl, hframe, hcomplete⟩
      · rw [hparse] at hinc
        cases hinc
      · rw [hparse] at hcomplete
        cases hcomplete
        have hp : Carried codec p := hpending p (by simp)
        obtain rfl : handler = .start p := by
          have hp' := hdec p _ hp.rawBytes.1
          rcases hhandler with ⟨e, he, -⟩ | ⟨p', hp'', rfl⟩
          · rw [hp'] at he
            cases he
          · rw [hp'] at hp''
            cases hp''
            rfl
        rw [hframe, List.flatMap_cons] at bytes
        have hsplit : packets = (handled ++ [p]) ++ ps := by
          rw [split]
          simp
        refine .handling (tasks_setTask_self _ _ (.handling n stream (.start p))) hsplit
          (List.append_cancel_left bytes) ?_ (by simp) fun hq => ?_
        · intro p' heq
          cases heq
          exact hp.not_handshake
        · rcases hasQuit_append_singleton.mp hq with hq | ⟨q, rfl⟩
          · exact Or.inr (quit hq)
          · exact Or.inl rfl
  · rw [task] at ht
    cases ht

/-- A task that handles a packet runs the next section of `on_packet`. -/
theorem pollTask_handling {handler : Handler} {handled pending : List Packet} {shuffle : Shuffle}
    (att : Attached codec n stream s) (task : s.tasks stream = .handling n stream handler)
    (split : packets = handled ++ pending)
    (bytes : s.inbound stream = pending.flatMap (packetFrame codec))
    (start : ∀ p, handler = .start p → p.isHandshake = false)
    (reply : ∀ response p, handler = .reply response p → response.isResponse = true)
    (quit : HasQuit handled → handler.isQuitting = true ∨ s.aborted stream = true)
    (h : s.pollTask codec stream true shuffle = some s') :
    Attending codec s' n stream packets := by
  rcases pollTask_cases h with ⟨n', stream', got', ht, -⟩ | ⟨n', stream', handler', ht, hcase⟩
  · rw [task] at ht
    cases ht
  · rw [task] at ht
    cases ht
    rcases hcase with ⟨hnone, -⟩ | ⟨u, handler', hsec, rfl⟩
    · exact absurd hnone (handlerSection_ne_none start reply)
    · obtain ⟨hstart', hreply'⟩ := handlerSection_stop hsec
      have hstart : ∀ p, handler' = .start p → p.isHandshake = false :=
        fun p heq => absurd heq (hstart' p)
      have hbytes : u.inbound stream = pending.flatMap (packetFrame codec) :=
        (congrFun (Attached.inbound_handlerSection hsec).2.1 stream).trans bytes
      refine .resume (tasks_setTask_self _ _ _) split hbytes hstart hreply' fun hq => ?_
      rcases handlerSection_cases hsec with ⟨⟨dht, fired, rfl⟩, hsame, -⟩ |
        ⟨response, p, peer, body, rfl, rfl, -, -, -, rfl⟩ | ⟨stage, q, next, rfl, rfl, hdisc⟩
      · rw [hsame]
        exact quit hq
      · exact quit hq
      · rcases disconnectSection_cases hdisc with ⟨rfl, rfl, -⟩ |
          ⟨rfl, ⟨rfl, hn, rfl⟩ | ⟨peer, rfl, hn, rfl⟩⟩ | ⟨rfl, rfl, rfl⟩
        · exact Or.inl rfl
        · exact Or.inr (att.aborted_of_none hn)
        · right
          cases ha : s.aborted stream with
          | true => exact ((att.removePeer hn fun _ ha' => absurd ha (by simp [ha'])).2.gone ha).1
          | false =>
            obtain ⟨peer', hn', -, htask⟩ := att.entry ha
            obtain rfl : peer = peer' := Option.some.inj (hn.symm.trans hn')
            have haborted : (s.removePeer n peer).aborted peer.readStreamTask = true :=
              Function.update_self _ _ _
            rw [htask] at haborted
            exact haborted
        · exact quit hq

theorem pollTask (inv : Attending codec s n stream packets) (att : Attached codec n stream s)
    (hdec : ∀ p body, codec.rawBytes p = .ok body → codec.fromRawBytes body = .ok p)
    (hcarried : ∀ p ∈ packets, Carried codec p)
    (hclosed : s.closed stream = true → HasQuit packets) {writes : Bool} {shuffle : Shuffle}
    (hcivil : s.Civil codec n stream (.poll stream writes shuffle))
    (h : s.pollTask codec stream writes shuffle = some s') :
    Attending codec s' n stream packets := by
  cases inv with
  | reading task split bytes within quit =>
    exact pollTask_reading hdec hcarried hclosed task split bytes within quit h
  | handling task split bytes start reply quit =>
    obtain ⟨rfl, -⟩ := hcivil stream _ task
    exact pollTask_handling att task split bytes start reply quit h
  | ended task aborted =>
    rw [NodeState.pollTask] at h
    rcases task with task | task
    · simp [task] at h
    · simp [task] at h

/-- **What a node does keeps its read task in step**, whoever removes the connection. -/
theorem step (inv : Attending codec s n stream packets) (att : Attached codec n stream s)
    (hquit : Carried codec (.quit quitReceived))
    (hdec : ∀ p body, codec.rawBytes p = .ok body → codec.fromRawBytes body = .ok p)
    (hcarried : ∀ p ∈ packets, Carried codec p)
    (hclosed : s.closed stream = true → HasQuit packets) {l : NodeLabel}
    (hcivil : s.Civil codec n stream l) (h : s.step codec l = some s') :
    Attending codec s' n stream packets ∧ s'.closed stream = s.closed stream := by
  by_cases hl : Attached.IsOwn stream l
  · cases l with
    | poll t writes shuffle =>
      obtain rfl : t = stream := hl
      refine ⟨inv.pollTask att hdec hcarried hclosed hcivil h, ?_⟩
      rcases pollTask_cases h with ⟨m, stream', got, -, hcase⟩ | ⟨m, stream', handler, -, hcase⟩
      · rcases hcase with ⟨b, rest, -, -, rfl⟩ | ⟨-, -, -, rfl⟩ | ⟨-, rfl⟩ | ⟨_, _, _, -, -, rfl⟩
        · rfl
        · rfl
        · rfl
        · rfl
      · rcases hcase with ⟨-, rfl⟩ | ⟨u, handler', hsec, rfl⟩
        · rfl
        · exact congrFun (Attached.inbound_handlerSection hsec).2.2 _
    | cancel t =>
      obtain rfl : t = stream := hl
      rw [NodeState.step] at h
      split at h
      · rename_i hok
        cases h
        exact ⟨.ended (Or.inr (tasks_setTask_self _ _ _)) (Bool.and_eq_true_iff.mp hok).1, rfl⟩
      · cases h
    | _ => exact hl.elim
  · obtain ⟨htasks, hin, hclosed⟩ := att.frame hcivil hl h
    exact ⟨inv.congr htasks hin fun ha => ((att.step hquit hcivil h).2.gone ha).1, hclosed⟩

end Attending

end Tewta
