import Tewta.Node.Alive
import Tewta.Node.Reading

/-!
# One packet of a peer at a time

The documentation of `on_packet` promises that packets of one peer are handled
one after the other.  Every connection has a single read task, so this holds as
long as there is one connection.  But a connection that is removed leaves its
read task behind: aborting a task only stops it where it waits, and the call that
removes the connection may be the task's own.

`handled_serially_iff_in_turn` is about every run: no two calls of `on_packet` for
one peer are in progress at once, if and only if no packet is begun while a call
of a connection that was removed is in progress.  `two_handlers_of_one_peer` is a
run outside: a read task handles a Quit, and the peer is back before it is done.
-/

namespace Tewta

open Framing Transition NodeState

variable {codec : Codec Bytes}

namespace NodeState

/-- A call of `on_packet` for the peer is in progress in the task. -/
def Handles (s : NodeState) (t : TaskId) (n : PeerID) : Prop :=
  ∃ stream handler, s.tasks t = .handling n stream handler

/-- The next section of the task calls `on_packet` for the peer. -/
def Begins (codec : Codec Bytes) (s : NodeState) (t : TaskId) (n : PeerID) : Prop :=
  ∃ stream got body rest p, s.tasks t = .reading n stream got ∧
    parse maxPacketSize got = .complete body rest ∧ codec.fromRawBytes body = .ok p

/-- At most one call of `on_packet` is in progress for each peer. -/
def Serial (s : NodeState) : Prop :=
  ∀ n t t', s.Handles t n → s.Handles t' n → t = t'

/-- No call of `on_packet` begins while another is in progress for the peer, one of
the two in the read task of a connection that was removed. -/
def InTurn (codec : Codec Bytes) (s : NodeState) : NodeLabel → Prop
  | .poll t _ _ => ∀ n t', s.Begins codec t n → s.Handles t' n →
      s.aborted t = false ∧ s.aborted t' = false
  | _ => True

theorem Handles.readsFrom {s : NodeState} {t : TaskId} {n : PeerID} (h : s.Handles t n) :
    (s.tasks t).ReadsFrom n := by
  obtain ⟨stream, handler, ht⟩ := h
  rw [ht]
  rfl

theorem Begins.readsFrom {s : NodeState} {t : TaskId} {n : PeerID} (h : s.Begins codec t n) :
    (s.tasks t).ReadsFrom n := by
  obtain ⟨stream, got, body, rest, p, ht, -, -⟩ := h
  rw [ht]
  rfl

end NodeState

/-! ### One live task for each peer -/

/-- A read task that was not aborted is that of an entry of the pool. -/
structure OneTask (s : NodeState) : Prop where
  numbered : Numbered s
  entry : ∀ t n, (s.tasks t).ReadsFrom n → s.aborted t = false →
    ∃ peer, s.pool.connections[n]? = some peer ∧ peer.readStreamTask = t

namespace OneTask

variable {s s' : NodeState} {n : PeerID} {peer : PeerInfo} {writes : Bool}

theorem init (ourPeerId : PeerID) : OneTask (NodeState.init ourPeerId) where
  numbered := .init ourPeerId
  entry t n h := by cases h

/-- Of two read tasks of one peer, one was aborted. -/
theorem eq_of_readsFrom (inv : OneTask s) {t t' : TaskId} (h : (s.tasks t).ReadsFrom n)
    (h' : (s.tasks t').ReadsFrom n) (ha : s.aborted t = false) (ha' : s.aborted t' = false) :
    t = t' := by
  obtain ⟨peer, hn, ht⟩ := inv.entry t n h ha
  obtain ⟨peer', hn', ht'⟩ := inv.entry t' n h' ha'
  rw [hn] at hn'
  cases hn'
  exact ht.symm.trans ht'

theorem removePeer (inv : OneTask s) (hn : s.pool.connections[n]? = some peer) :
    OneTask (s.removePeer n peer) := by
  refine ⟨inv.numbered.removePeer hn, fun t m h ha => ?_⟩
  have hne : t ≠ peer.readStreamTask := by
    rintro rfl
    have habort : (s.removePeer n peer).aborted peer.readStreamTask = true :=
      Function.update_self _ _ _
    rw [habort] at ha
    cases ha
  have ha' : s.aborted t = false := (Function.update_of_ne hne _ _).symm.trans ha
  obtain ⟨peer', hm, ht⟩ := inv.entry t m h ha'
  refine ⟨peer', ?_, ht⟩
  rw [getElem?_removePeer, if_neg, hm]
  rintro rfl
  rw [hn] at hm
  cases hm
  exact hne ht.symm

theorem disconnectSection (inv : OneTask s) {quit : QuitPacket} {stage : Disconnecting}
    {next : Option Disconnecting}
    (h : s.disconnectSection codec n quit writes stage = some (s', next)) : OneTask s' := by
  have hnum := inv.numbered.disconnectSection h
  rcases disconnectSection_cases h with ⟨-, -, ⟨rfl, -⟩ | ⟨peer, body, -, -, rfl⟩⟩ |
    ⟨-, ⟨-, -, rfl⟩ | ⟨peer, -, hn, rfl⟩⟩ | ⟨-, -, rfl⟩
  · exact inv
  · exact ⟨hnum, inv.entry⟩
  · exact inv
  · exact inv.removePeer hn
  · exact ⟨hnum, inv.entry⟩

theorem handlerSection (inv : OneTask s) {shuffle : Shuffle} {handler handler' : Handler}
    (h : s.handlerSection codec n writes shuffle handler = some (s', handler')) : OneTask s' := by
  have hnum := inv.numbered.handlerSection h
  rcases handlerSection_cases h with ⟨⟨dht, fired, rfl⟩, -⟩ |
    ⟨response, p, peer, body, -, -, -, -, -, rfl⟩ | ⟨stage, q, next, -, -, hsec⟩
  · exact ⟨hnum, inv.entry⟩
  · exact ⟨hnum, inv.entry⟩
  · exact inv.disconnectSection hsec

theorem setTask (inv : OneTask s) {t : TaskId} {task : ReadTask} (hlt : t < s.next)
    (h : ∀ n, task.ReadsFrom n → (s.tasks t).ReadsFrom n) : OneTask (s.setTask t task) := by
  refine ⟨inv.numbered.setTask hlt task, fun t' n ht' ha => ?_⟩
  by_cases heq : t' = t
  · subst heq
    rw [tasks_setTask_self] at ht'
    exact inv.entry t' n (h n ht') ha
  · rw [tasks_setTask_of_ne s heq] at ht'
    exact inv.entry t' n ht' ha

theorem insertPeer (inv : OneTask s) (n : PeerID) (addr : String) :
    OneTask (s.insertPeer codec n addr) := by
  have hnum : Numbered (s.insertPeer codec n addr) := inv.numbered.insertPeer n addr
  obtain ⟨-, -, -, haborted⟩ := insertPeer_next codec s n addr
  refine ⟨hnum, fun t m ht ha => ?_⟩
  rw [haborted] at ha
  cases hn : s.pool.connections[n]? with
  | some peer =>
    have hkeep : (s.insertPeer codec n addr).tasks = s.tasks ∧
        (s.insertPeer codec n addr).pool = s.pool := by
      simp only [NodeState.insertPeer, hn]
      split <;> exact ⟨rfl, rfl⟩
    rw [hkeep.1] at ht
    rw [hkeep.2]
    exact inv.entry t m ht ha
  | none =>
    rw [insertPeer_of_none codec addr hn] at ht ⊢
    simp only [ConnectionPool.getElem?_insert]
    by_cases heq : t = s.next
    · subst heq
      have hread : (s.setTask s.next (.reading n s.next [])).tasks s.next =
          .reading n s.next [] := tasks_setTask_self _ _ _
      have hm : n = m := by
        simp only [hread] at ht
        exact ht
      exact ⟨_, if_pos hm, rfl⟩
    · have hold : (s.setTask s.next (.reading n s.next [])).tasks t = s.tasks t :=
        tasks_setTask_of_ne s heq _
      simp only [hold] at ht
      obtain ⟨peer, hm, htask⟩ := inv.entry t m ht ha
      refine ⟨peer, ?_, htask⟩
      rw [if_neg, hm]
      rintro rfl
      rw [hn] at hm
      cases hm

theorem pollTask (inv : OneTask s) {t : TaskId} {shuffle : Shuffle}
    (h : s.pollTask codec t writes shuffle = some s') : OneTask s' := by
  rcases pollTask_cases h with ⟨m, stream, got, ht, hcase⟩ | ⟨m, stream, handler, ht, hcase⟩
  · have hlt : t < s.next := inv.numbered.lt_of_task (by rw [ht]; simp)
    have hreads : ∀ k, m = k → (s.tasks t).ReadsFrom k := fun k hk => by rw [ht]; exact hk
    rcases hcase with ⟨b, rest, -, -, rfl⟩ | ⟨-, -, -, rfl⟩ | ⟨-, rfl⟩ | ⟨-, -, handler, -, -, rfl⟩
    · have hread : OneTask { s with inbound := Function.update s.inbound stream rest } :=
        ⟨⟨inv.numbered.entries, inv.numbered.tasks, inv.numbered.aborted, inv.numbered.written⟩,
          inv.entry⟩
      exact hread.setTask hlt hreads
    · exact inv.setTask hlt fun k hk => by cases hk
    · exact inv.setTask hlt fun k hk => by cases hk
    · exact inv.setTask hlt fun k hk => hreads k (ReadTask.readsFrom_resume.mp hk)
  · have hlt : t < s.next := inv.numbered.lt_of_task (by rw [ht]; simp)
    rcases hcase with ⟨-, rfl⟩ | ⟨u, handler', hsec, rfl⟩
    · exact inv.setTask hlt fun k hk => by cases hk
    · obtain ⟨htasks, hnext⟩ := tasks_handlerSection hsec
      refine (inv.handlerSection hsec).setTask (hnext ▸ hlt) fun k hk => ?_
      rw [htasks, ht]
      exact ReadTask.readsFrom_resume.mp hk

theorem step (inv : OneTask s) {l : NodeLabel} (h : s.step codec l = some s') : OneTask s' := by
  have hnum := inv.numbered.step h
  cases step_cases h with
  | insert => exact inv.insertPeer _ _
  | outside => exact ⟨hnum, inv.entry⟩
  | call => exact ⟨hnum, inv.entry⟩
  | disconnect _ hsec =>
    have hinv := inv.disconnectSection hsec
    exact ⟨hnum, hinv.entry⟩
  | disconnectEnds => exact ⟨hnum, inv.entry⟩
  | poll hpoll => exact inv.pollTask hpoll
  | cancel haborted halive =>
    refine inv.setTask (inv.numbered.lt_of_task fun hnone => ?_) fun k hk => by cases hk
    rw [hnone] at halive
    cases halive
  | send => exact ⟨hnum, inv.entry⟩

end OneTask

/-! ### What a step begins -/

section Step

variable {s s' : NodeState} {l : NodeLabel} {t : TaskId} {n : PeerID}

theorem handles_of_pollTask {u : TaskId} {writes : Bool} {shuffle : Shuffle}
    (h : s.pollTask codec u writes shuffle = some s') (ht : s'.Handles t n) :
    s.Handles t n ∨ (t = u ∧ s.Begins codec u n) := by
  obtain ⟨stream, handler, ht⟩ := ht
  rcases pollTask_cases h with ⟨m, stream', got, hu, hcase⟩ | ⟨m, stream', handler', hu, hcase⟩
  · have hold : ∀ {v : NodeState} {task : ReadTask}, v.tasks = s.tasks →
        (v.setTask u task).tasks t = .handling n stream handler →
        (t = u ∧ task = .handling n stream handler) ∨ s.Handles t n := by
      intro v task hv htask
      rcases update_eq_cases htask with ⟨rfl, heq⟩ | ⟨-, heq⟩
      · exact Or.inl ⟨rfl, heq⟩
      · exact Or.inr ⟨stream, handler, hv ▸ heq⟩
    rcases hcase with ⟨b, rest, -, -, rfl⟩ | ⟨-, -, -, rfl⟩ | ⟨-, rfl⟩ |
      ⟨body, rest, handler', hparse, hstart, rfl⟩
    · rcases hold (by rfl) ht with ⟨-, heq⟩ | hold
      · cases heq
      · exact Or.inl hold
    · rcases hold (by rfl) ht with ⟨-, heq⟩ | hold
      · cases heq
      · exact Or.inl hold
    · rcases hold (by rfl) ht with ⟨-, heq⟩ | hold
      · cases heq
      · exact Or.inl hold
    · rcases hold (by rfl) ht with ⟨rfl, heq⟩ | hold
      · rcases hstart with ⟨e, -, rfl⟩ | ⟨p, hp, rfl⟩
        · cases heq
        · cases heq
          exact Or.inr ⟨rfl, _, _, _, _, p, hu, hparse, hp⟩
      · exact Or.inl hold
  · rcases hcase with ⟨-, rfl⟩ | ⟨v, handler'', hsec, rfl⟩
    · rcases update_eq_cases ht with ⟨-, heq⟩ | ⟨-, heq⟩
      · cases heq
      · exact Or.inl ⟨stream, handler, heq⟩
    · rcases update_eq_cases ht with ⟨rfl, heq⟩ | ⟨-, heq⟩
      · refine Or.inl ⟨stream', handler', hu.trans ?_⟩
        cases handler'' <;> cases heq <;> rfl
      · rw [(tasks_handlerSection hsec).1] at heq
        exact Or.inl ⟨stream, handler, heq⟩

/-- **Only a poll begins a call of `on_packet`.** -/
theorem handles_of_step (h : s.step codec l = some s') (ht : s'.Handles t n) :
    s.Handles t n ∨ (∃ writes shuffle, l = .poll t writes shuffle) ∧ s.Begins codec t n := by
  cases step_cases h with
  | poll hpoll =>
    rcases handles_of_pollTask hpoll ht with ht | ⟨rfl, hbegins⟩
    · exact Or.inl ht
    · exact Or.inr ⟨⟨_, _, rfl⟩, hbegins⟩
  | @insert m addr =>
    obtain ⟨stream, handler, ht⟩ := ht
    by_cases heq : t = s.next
    · subst heq
      rw [NodeState.insertPeer] at ht
      split at ht
      · split at ht <;> exact Or.inl ⟨stream, handler, ht⟩
      · have hread : (s.setTask s.next (.reading m s.next [])).tasks s.next =
            .reading m s.next [] := tasks_setTask_self _ _ _
        simp only [hread] at ht
        cases ht
    · rw [(insertPeer_of_ne codec m addr heq).1] at ht
      exact Or.inl ⟨stream, handler, ht⟩
  | outside => exact Or.inl ht
  | call => exact Or.inl ht
  | disconnect _ hsec =>
    obtain ⟨stream, handler, ht⟩ := ht
    refine Or.inl ⟨stream, handler, ?_⟩
    rcases disconnectSection_cases hsec with ⟨-, -, ⟨rfl, -⟩ | ⟨peer, body, -, -, rfl⟩⟩ |
      ⟨-, ⟨-, -, rfl⟩ | ⟨peer, -, -, rfl⟩⟩ | ⟨-, -, rfl⟩ <;> exact ht
  | disconnectEnds => exact Or.inl ht
  | cancel =>
    obtain ⟨stream, handler, ht⟩ := ht
    rcases update_eq_cases ht with ⟨-, heq⟩ | ⟨-, heq⟩
    · cases heq
    · exact Or.inl ⟨stream, handler, heq⟩
  | send => exact Or.inl ht

theorem begins_ne {t' : TaskId} (h : s.Begins codec t n) (h' : s.Handles t' n) : t ≠ t' := by
  obtain ⟨stream, got, body, rest, p, ht, -, -⟩ := h
  obtain ⟨stream', handler, ht'⟩ := h'
  rintro rfl
  rw [ht] at ht'
  cases ht'

/-- A step in turn keeps the calls one after the other. -/
theorem serial_step (inv : OneTask s) (hs : s.Serial) (hok : s.InTurn codec l)
    (h : s.step codec l = some s') : s'.Serial := by
  have hnew : ∀ m u u', ((∃ writes shuffle, l = .poll u writes shuffle) ∧ s.Begins codec u m) →
      s.Handles u' m → False := by
    rintro m u u' ⟨⟨writes, shuffle, rfl⟩, hbegins⟩ hhandles
    obtain ⟨ha, ha'⟩ := hok m u' hbegins hhandles
    exact begins_ne hbegins hhandles
      (inv.eq_of_readsFrom hbegins.readsFrom hhandles.readsFrom ha ha')
  intro m u u' hu hu'
  rcases handles_of_step h hu with hu | hu
  · rcases handles_of_step h hu' with hu' | hu'
    · exact hs m u u' hu hu'
    · exact (hnew m u' u hu' hu).elim
  · rcases handles_of_step h hu' with hu' | hu'
    · exact (hnew m u u' hu hu').elim
    · obtain ⟨⟨writes, shuffle, rfl⟩, -⟩ := hu
      obtain ⟨⟨writes', shuffle', heq⟩, -⟩ := hu'
      cases heq
      rfl

/-- A call that begins out of turn is a second one. -/
theorem not_serial_of_not_inTurn (hbad : ¬ s.InTurn codec l) (h : s.step codec l = some s') :
    ¬ s'.Serial := by
  cases l with
  | poll u writes shuffle =>
    obtain ⟨n, t', hbegins, hhandles, -⟩ : ∃ n t', s.Begins codec u n ∧ s.Handles t' n ∧
        ¬ (s.aborted u = false ∧ s.aborted t' = false) := by
      simpa only [InTurn, not_forall, exists_prop] using hbad
    have hne := begins_ne hbegins hhandles
    obtain ⟨stream, got, body, rest, p, hu, hparse, hp⟩ := hbegins
    obtain ⟨stream', handler, ht'⟩ := hhandles
    have hpoll : s.pollTask codec u writes shuffle =
        some (s.setTask u (.handling n stream (.start p))) := by
      simp only [NodeState.pollTask, hu, hparse, hp]
    have hs' : s.setTask u (.handling n stream (.start p)) = s' :=
      Option.some.inj (hpoll.symm.trans h)
    intro hserial
    refine hne (hserial n u t' ⟨stream, .start p, ?_⟩ ⟨stream', handler, ?_⟩)
    · rw [← hs', tasks_setTask_self]
    · rw [← hs', tasks_setTask_of_ne s hne.symm, ht']
  | _ => exact absurd (by trivial) hbad

end Step

/-! ### Runs -/

/-- **Packets of one peer are handled serially exactly as long as each is begun in
its turn**, whoever connects, disconnects and connects again in which order. -/
theorem handled_serially_iff_in_turn (codec : Codec Bytes) (ourPeerId : PeerID)
    {labels : List NodeLabel} {s : NodeState}
    (hrun : exec (NodeState.step codec) (.init ourPeerId) labels = some s) :
    Always (NodeState.step codec) Serial (.init ourPeerId) labels ↔
      Meets (NodeState.step codec) (InTurn codec) (.init ourPeerId) labels := by
  have hinit : (NodeState.init ourPeerId).Serial := by
    rintro n t t' ⟨stream, handler, ht⟩
    cases ht
  refine always_iff_meets (I := fun s => OneTask s ∧ s.Serial) ?_ ?_ ?_ hrun
    ⟨.init ourPeerId, hinit⟩
  · intro s l t ⟨inv, hs⟩ hok hl
    exact ⟨inv.step hl, serial_step inv hs hok hl⟩
  · intro s ⟨_, hs⟩
    exact hs
  · intro s l t _ hbad hl
    exact not_serial_of_not_inTurn hbad hl

/-! ### A peer that is back at once -/

/-- A peer quits, and connects and sends a packet again while its Quit is still
being handled. -/
def quickReturn (n : PeerID) (quit ping : Bytes) : List NodeLabel :=
  [.insert n "local-1"] ++ receive 0 0 quit ++
    List.replicate 3 (.poll 0 true ⟨id, Shuffle.perm_id⟩) ++ [.insert n "local-1"] ++
    receive 1 1 ping

theorem exec_quickReturn (codec : Codec Bytes) (ourPeerId n : PeerID) {q : QuitPacket}
    {p : Packet} {quit ping : Bytes}
    (hquit : quit.length < maxPacketSize) (hping : ping.length < maxPacketSize)
    (hq : codec.fromRawBytes quit = .ok (.quit q)) (hp : codec.fromRawBytes ping = .ok p) :
    ∃ s, exec (NodeState.step codec) (.init ourPeerId) (quickReturn n quit ping) = some s ∧
      s.tasks 0 = .handling n 0 (.disconnecting .announcing q) ∧
      s.tasks 1 = .handling n 1 (.start p) := by
  -- the peer connects
  let s₁ := (NodeState.init ourPeerId).insertPeer codec n "local-1"
  have hnew : (NodeState.init ourPeerId).pool.connections[n]? = none := by
    simp [NodeState.init, ConnectionPool.new]
  have hs₁ : s₁ = _ := insertPeer_of_none codec "local-1" hnew
  have hentry : s₁.pool.connections[n]? = some ⟨"local-1", 0, none, 0⟩ := by
    rw [hs₁]
    exact (ConnectionPool.getElem?_insert _ _ _ _).trans (if_pos rfl)
  -- its Quit is read
  have htask : s₁.tasks 0 = .reading n 0 [] := by rw [hs₁]; rfl
  have hread := exec_receive hquit hq htask (by rw [hs₁]; rfl) (by rw [hs₁]; rfl)
  -- and handled up to the removal
  obtain ⟨u₁, u₂, u₃, h₁, -, h₂, -, h₃, htasks, hpool, -, hin, hclosed, hnext⟩ :=
    exists_announcing ⟨id, fun _ => .refl _⟩
      (tasks_setTask_self s₁ 0 (.handling n 0 (.start (.quit q)))) hentry rfl
  have hpolls : exec (NodeState.step codec) (s₁.setTask 0 (.handling n 0 (.start (.quit q))))
      (List.replicate 3 (.poll 0 true ⟨id, fun _ => .refl _⟩)) = some u₃ :=
    exec_cons_eq_some.mpr ⟨u₁, h₁, exec_cons_eq_some.mpr ⟨u₂, h₂, exec_cons_eq_some.mpr
      ⟨u₃, h₃, rfl⟩⟩⟩
  -- the peer is back, and its first packet is read
  have hgone : u₃.pool.connections[n]? = none := by
    rw [hpool, ConnectionPool.getElem?_remove, if_pos rfl]
  have hs₄ := insertPeer_of_none codec "local-1" hgone
  have hone : u₃.next = 1 := by
    rw [hnext]
    show s₁.next = 1
    rw [hs₁]
    rfl
  have htask' : (u₃.insertPeer codec n "local-1").tasks 1 = .reading n 1 [] := by
    rw [hs₄, hone]
    rfl
  have hin' : (u₃.insertPeer codec n "local-1").inbound 1 = [] := by
    rw [(insertPeer_next codec u₃ n "local-1").2.1, hin]
    show s₁.inbound 1 = []
    rw [hs₁]
    rfl
  have hopen' : (u₃.insertPeer codec n "local-1").closed 1 = false := by
    rw [(insertPeer_next codec u₃ n "local-1").2.2.1, hclosed]
    show s₁.closed 1 = false
    rw [hs₁]
    rfl
  have hread' := exec_receive hping hp htask' hin' hopen'
  refine ⟨(u₃.insertPeer codec n "local-1").setTask 1 (.handling n 1 (.start p)), ?_, ?_,
    tasks_setTask_self _ _ _⟩
  · simp only [quickReturn, List.append_assoc]
    rw [exec_append_of (t := s₁) rfl, exec_append_of hread, exec_append_of hpolls,
      exec_append_of (t := u₃.insertPeer codec n "local-1") rfl, hread']
  · rw [tasks_setTask_of_ne _ zero_ne_one, hs₄]
    show Function.update u₃.tasks u₃.next _ 0 = _
    rw [hone, Function.update_of_ne zero_ne_one, htasks, Function.update_self]

/-- A codec for the two packets of such a peer. -/
def quitPingCodec : Codec Bytes := listCodec [.quit quitReceived, .ping ⟨0⟩]

/-- **Two packets of one peer are handled at once.** -/
theorem two_handlers_of_one_peer :
    ∃ s, exec (NodeState.step quitPingCodec) (.init ⟨realSha256 []⟩)
      (quickReturn ⟨realSha256 [1]⟩ [0] [1]) = some s ∧ ¬ s.Serial := by
  obtain ⟨s, hrun, ht, ht'⟩ := exec_quickReturn quitPingCodec ⟨realSha256 []⟩ ⟨realSha256 [1]⟩
    (show [0].length < maxPacketSize by decide) (show [1].length < maxPacketSize by decide) rfl rfl
  exact ⟨s, hrun, fun hserial => zero_ne_one (hserial _ 0 1 ⟨_, _, ht⟩ ⟨_, _, ht'⟩)⟩

/-- The peer was back before its Quit was done with. -/
theorem handled_serially_iff_in_turn_quickReturn :
    ¬ Meets (NodeState.step quitPingCodec) (InTurn quitPingCodec) (.init ⟨realSha256 []⟩)
      (quickReturn ⟨realSha256 [1]⟩ [0] [1]) := by
  obtain ⟨s, hrun, ht, ht'⟩ := exec_quickReturn quitPingCodec ⟨realSha256 []⟩ ⟨realSha256 [1]⟩
    (show [0].length < maxPacketSize by decide) (show [1].length < maxPacketSize by decide) rfl rfl
  rw [← handled_serially_iff_in_turn _ _ hrun]
  intro hall
  exact zero_ne_one (hall.last hrun _ 0 1 ⟨_, _, ht⟩ ⟨_, _, ht'⟩)

end Tewta
