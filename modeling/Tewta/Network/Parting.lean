import Tewta.Lib.Duplex
import Tewta.Node.Attached

/-!
# Two nodes that part

Two nodes have a connection with each other.  On both of them tasks send packets, the read
tasks handle what arrives, and timeouts and lookups call `disconnect`, as often and in
whatever order; other peers come and go meanwhile.  A node that removes the connection drops
its end of the stream, and the other one is not told but by the Quit that was written before.

`disconnections_are_mutual` says that this is enough.  When nothing is in flight either both
have the connection or neither has, and once one of them has removed it the other will, with
nothing left to do but to read what has been written.  So there are no half-open connections,
as long as the writes between the two succeed and what they write can be read.
-/

namespace Tewta

open Framing Transition Duplex NodeState

variable {codec : Codec Bytes}

/-- A connection of two nodes: the peer that each has there, and its number of the stream. -/
structure Link where
  them : Side → PeerID
  stream : Side → StreamId

/-- The two nodes, and how many frames of the stream have arrived at each. -/
structure LinkState where
  nodes : Side → NodeState
  taken : Side → ℕ

inductive LinkLabel
  /-- a frame of the stream arrives at a side -/
  | deliver (k : Side)
  /-- the end of the stream arrives at a side -/
  | hangUp (k : Side)
  /-- a node takes any step of its own -/
  | node (k : Side) (l : NodeLabel)

namespace LinkState

def setNode (s : LinkState) (k : Side) (node : NodeState) : LinkState :=
  { s with nodes := Function.update s.nodes k node }

@[simp] theorem nodes_setNode_self (s : LinkState) (k : Side) (node : NodeState) :
    (s.setNode k node).nodes k = node := Function.update_self _ _ _

@[simp] theorem nodes_setNode_other (s : LinkState) (k : Side) (node : NodeState) :
    (s.setNode k node).nodes k.other = s.nodes k.other :=
  Function.update_of_ne k.other_ne _ _

end LinkState

namespace Link

variable (link : Link)

/-- What has been written on the stream for a side. -/
def incoming (s : LinkState) (k : Side) : List Packet :=
  (s.nodes k.other).written (link.stream k.other)

/-- Has a side removed the connection, and with it dropped its end of the stream? -/
def hungUp (s : LinkState) (k : Side) : Bool := (s.nodes k).aborted (link.stream k)

/-- A side has the other in its pool, over this stream. -/
def Holds (s : LinkState) (k : Side) : Prop :=
  ∃ peer, (s.nodes k).pool.connections[link.them k]? = some peer ∧
    peer.writeStream = link.stream k

/-- A node takes a step of its own. -/
def nodeStep (codec : Codec Bytes) (s : LinkState) (k : Side) (l : NodeLabel) :
    Option LinkState :=
  ((s.nodes k).step codec l).map (s.setNode k)

def step (codec : Codec Bytes) (s : LinkState) : LinkLabel → Option LinkState
  | .deliver k =>
    match (link.incoming s k)[s.taken k]? with
    | some p =>
      nodeStep codec { s with taken := Function.update s.taken k (s.taken k + 1) } k
        (.arrive (link.stream k) (packetFrame codec p))
    | none => none
  | .hangUp k =>
    if link.hungUp s k.other ∧ (link.incoming s k).length ≤ s.taken k then
      nodeStep codec s k (.close (link.stream k))
    else none
  | .node k l => nodeStep codec s k l

/-- Each side leaves the stream to the other, and what the two write to each other succeeds and
can be read. -/
def Civil (codec : Codec Bytes) (s : LinkState) : LinkLabel → Prop
  | .node k l => (s.nodes k).Civil codec (link.them k) (link.stream k) l
  | _ => True

/-- Nothing is in flight: the read tasks that are alive have handled everything that was
written. -/
def Quiescent (s : LinkState) : Prop :=
  ∀ k, ((s.nodes k).tasks (link.stream k)).isAlive = true →
    (s.nodes k).tasks (link.stream k) = .reading (link.them k) (link.stream k) [] ∧
      (s.nodes k).inbound (link.stream k) = [] ∧ s.taken k = (link.incoming s k).length

end Link

section Steps

variable {link : Link} {s s' : LinkState} {k : Side}

theorem nodeStep_spec {l : NodeLabel} (h : Link.nodeStep codec s k l = some s') :
    (s.nodes k).step codec l = some (s'.nodes k) ∧ s'.nodes k.other = s.nodes k.other ∧
      s'.taken = s.taken := by
  obtain ⟨node, hnode, rfl⟩ := Option.map_eq_some_iff.mp h
  exact ⟨by rw [LinkState.nodes_setNode_self, hnode], LinkState.nodes_setNode_other s k node, rfl⟩

theorem deliver_spec (h : link.step codec s (.deliver k) = some s') :
    ∃ p, (link.incoming s k)[s.taken k]? = some p ∧
      (s.nodes k).closed (link.stream k) = false ∧
      s'.nodes k = { s.nodes k with
        inbound := Function.update (s.nodes k).inbound (link.stream k)
          ((s.nodes k).inbound (link.stream k) ++ packetFrame codec p) } ∧
      s'.nodes k.other = s.nodes k.other ∧
      s'.taken = Function.update s.taken k (s.taken k + 1) := by
  rw [Link.step] at h
  split at h
  · rename_i p hp
    obtain ⟨hnode, hother, htaken⟩ := nodeStep_spec h
    rw [NodeState.step] at hnode
    split at hnode
    · cases hnode
    · rename_i hopen
      exact ⟨p, hp, by simpa using hopen, (Option.some.inj hnode).symm, hother, htaken⟩
  · cases h

theorem hangUp_spec (h : link.step codec s (.hangUp k) = some s') :
    link.hungUp s k.other = true ∧ (link.incoming s k).length ≤ s.taken k ∧
      s'.nodes k = { s.nodes k with
        closed := Function.update (s.nodes k).closed (link.stream k) true } ∧
      s'.nodes k.other = s.nodes k.other ∧ s'.taken = s.taken := by
  rw [Link.step] at h
  split at h
  · rename_i hend
    obtain ⟨hnode, hother, htaken⟩ := nodeStep_spec h
    exact ⟨hend.1, hend.2, (Option.some.inj hnode).symm, hother, htaken⟩
  · cases h

end Steps

/-- A connection that has just entered the pool, and that no call of `disconnect` is about to
remove. -/
structure Joined (codec : Codec Bytes) (n : PeerID) (stream : StreamId) (s : NodeState) :
    Prop where
  numbered : Numbered s
  lt : stream < s.next
  entry : ∃ peer, s.pool.connections[n]? = some peer ∧ peer.writeStream = stream ∧
    peer.readStreamTask = stream
  only : ∀ (m : PeerID) (peer : PeerInfo), s.pool.connections[m]? = some peer →
    peer.writeStream = stream ∨ peer.readStreamTask = stream → m = n
  task : s.tasks stream = .reading n stream []
  own : ∀ t, (s.tasks t).ReadsOn stream → t = stream
  alive : s.aborted stream = false
  inbound : s.inbound stream = []
  opened : s.closed stream = false
  written : s.written stream = []
  calm : ¬ s.Removing n
  calls : ∀ d quit stage, s.disconnects d = .running n quit stage → Carried codec (.quit quit)

theorem Joined.attached {n : PeerID} {stream : StreamId} {s : NodeState}
    (h : Joined codec n stream s) : Attached codec n stream s where
  numbered := h.numbered
  lt := h.lt
  entry _ := h.entry
  only m peer hm huses := ⟨h.only m peer hm huses, h.alive⟩
  own := h.own
  removing hr := absurd hr h.calm
  quit ha := absurd (h.alive.symm.trans ha) (by decide)
  carried p hp := by
    rw [h.written] at hp
    cases hp
  calls := h.calls

theorem Joined.attending {n : PeerID} {stream : StreamId} {s : NodeState}
    (h : Joined codec n stream s) : Attending codec s n stream [] := by
  have hnone : ([] : List Packet) = [] ++ [] := rfl
  refine .reading h.task hnone h.inbound (fun p rest heq => ?_) fun hq => ?_
  · cases heq
  · exact absurd hq not_hasQuit_nil

/-- **A connection that `insert` accepts** is one, unless somebody is about to remove its peer. -/
theorem joined_insertPeer {n : PeerID} {s : NodeState} (num : Numbered s) (addr : String)
    (hn : s.pool.connections[n]? = none) (hown : ∀ t, ¬ (s.tasks t).ReadsOn s.next)
    (hin : s.inbound s.next = []) (hopen : s.closed s.next = false) (hcalm : ¬ s.Removing n)
    (hcalls : ∀ d quit stage, s.disconnects d = .running n quit stage →
      Carried codec (.quit quit)) :
    Joined codec n s.next (s.insertPeer codec n addr) := by
  obtain ⟨hnext, hinbound, hclosed, haborted⟩ := insertPeer_next codec s n addr
  have hnew := insertPeer_of_none codec addr hn
  have hconnections : ∀ m, (s.insertPeer codec n addr).pool.connections[m]? =
      if n = m then some ⟨addr, s.next, none, s.next⟩ else s.pool.connections[m]? := by
    intro m
    rw [hnew]
    exact ConnectionPool.getElem?_insert ..
  have htasks : (s.insertPeer codec n addr).tasks =
      Function.update s.tasks s.next (.reading n s.next []) := by
    rw [hnew]
    rfl
  refine ⟨num.insertPeer n addr, hnext ▸ Nat.lt_succ_self _,
    ⟨⟨addr, s.next, none, s.next⟩, ?_, rfl, rfl⟩,
    fun m peer hm huses => ?_, ?_, fun t ht => ?_, ?_, ?_, ?_, ?_, ?_, ?_⟩
  · rw [hconnections, if_pos rfl]
  · rw [hconnections] at hm
    split at hm
    · rename_i heq
      exact heq.symm
    · obtain ⟨hwrite, htask⟩ := num.entries m peer hm
      rcases huses with huses | huses
      · exact absurd huses hwrite.ne
      · exact absurd huses htask.ne
  · rw [htasks, Function.update_self]
  · by_contra hne
    rw [htasks, Function.update_of_ne hne] at ht
    exact hown t ht
  · rw [haborted]
    exact num.aborted _ (Nat.le_refl _)
  · rw [hinbound, hin]
  · rw [hclosed, hopen]
  · rw [hnew]
    exact num.written _ (Nat.le_refl _)
  · rw [hnew]
    rintro (hd | ⟨t, stream, q, ht⟩)
    · exact hcalm (Or.inl hd)
    · rcases update_eq_cases ht with ⟨-, htask⟩ | ⟨-, ht⟩
      · cases htask
      · exact hcalm (Or.inr ⟨t, stream, q, ht⟩)
  · rw [hnew]
    exact hcalls

/-! ### The invariant -/

/-- Where the two stand. -/
structure LinkInv (codec : Codec Bytes) (link : Link) (s : LinkState) : Prop where
  attached : ∀ k, Attached codec (link.them k) (link.stream k) (s.nodes k)
  attending : ∀ k, Attending codec (s.nodes k) (link.them k) (link.stream k)
    ((link.incoming s k).take (s.taken k))
  taken : ∀ k, s.taken k ≤ (link.incoming s k).length
  closed : ∀ k, (s.nodes k).closed (link.stream k) = true →
    link.hungUp s k.other = true ∧ s.taken k = (link.incoming s k).length

namespace LinkInv

variable {link : Link} {s s' : LinkState} {k : Side}

theorem init (hjoined : ∀ k, Joined codec (link.them k) (link.stream k) (s.nodes k))
    (htaken : ∀ k, s.taken k = 0) : LinkInv codec link s where
  attached k := (hjoined k).attached
  attending k := by
    rw [htaken]
    exact (hjoined k).attending
  taken k := by
    rw [htaken]
    exact Nat.zero_le _
  closed k hc := absurd ((hjoined k).opened.symm.trans hc) (by decide)

theorem holds_iff (inv : LinkInv codec link s) : link.Holds s k ↔ link.hungUp s k = false := by
  constructor
  · rintro ⟨peer, hn, hwrite⟩
    exact ((inv.attached k).only _ peer hn (Or.inl hwrite)).2
  · intro ha
    obtain ⟨peer, hn, hwrite, -⟩ := (inv.attached k).entry ha
    exact ⟨peer, hn, hwrite⟩

theorem hasQuit_of_hungUp (inv : LinkInv codec link s) (h : link.hungUp s k.other = true) :
    HasQuit (link.incoming s k) := (inv.attached k.other).quit h

theorem carried (inv : LinkInv codec link s) : ∀ p ∈ link.incoming s k, Carried codec p :=
  (inv.attached k.other).carried

theorem hasQuit_of_closed (inv : LinkInv codec link s)
    (hc : (s.nodes k).closed (link.stream k) = true) :
    HasQuit ((link.incoming s k).take (s.taken k)) := by
  obtain ⟨hung, htaken⟩ := inv.closed k hc
  rw [htaken, List.take_length]
  exact inv.hasQuit_of_hungUp hung

theorem nodeStep (inv : LinkInv codec link s) (hquit : Carried codec (.quit quitReceived))
    (hdec : ∀ p body, codec.rawBytes p = .ok body → codec.fromRawBytes body = .ok p)
    {l : NodeLabel} (hcivil : link.Civil codec s (.node k l))
    (h : Link.nodeStep codec s k l = some s') : LinkInv codec link s' := by
  obtain ⟨hnode, hother, htaken⟩ := nodeStep_spec h
  obtain ⟨hatt, hgrows⟩ := (inv.attached k).step hquit hcivil hnode
  obtain ⟨hattend, hclosed⟩ := (inv.attending k).step (inv.attached k) hquit hdec
    (fun p hp => inv.carried p (List.mem_of_mem_take hp)) inv.hasQuit_of_closed hcivil hnode
  have hself : link.incoming s' k = link.incoming s k := by
    rw [Link.incoming, hother]
    rfl
  have hnow : link.incoming s' k.other = (s'.nodes k).written (link.stream k) := by
    rw [Link.incoming, Side.other_other]
  have hwas : link.incoming s k.other = (s.nodes k).written (link.stream k) := by
    rw [Link.incoming, Side.other_other]
  -- what is written for the other side is what was written, and more
  have hgrows' : link.incoming s k.other <+: link.incoming s' k.other := by
    rw [hnow, hwas]
    exact hgrows.written
  refine ⟨Side.both k hatt ?_, Side.both k ?_ ?_, Side.both k ?_ ?_, Side.both k ?_ ?_⟩
  · rw [hother]
    exact inv.attached k.other
  · rw [hself, htaken]
    exact hattend
  · have htake : (link.incoming s' k.other).take (s.taken k.other) =
        (link.incoming s k.other).take (s.taken k.other) := by
      obtain ⟨more, hmore⟩ := hgrows'
      rw [← hmore, List.take_append_of_le_length (inv.taken k.other)]
    rw [hother, htaken, htake]
    exact inv.attending k.other
  · rw [hself, htaken]
    exact inv.taken k
  · rw [htaken]
    exact (inv.taken k.other).trans hgrows'.length_le
  · rw [hself, hclosed, htaken, Link.hungUp, hother]
    exact inv.closed k
  · rw [hother, htaken]
    intro hc
    obtain ⟨hung, hlen⟩ := inv.closed k.other hc
    rw [Link.hungUp, Side.other_other] at hung
    obtain ⟨hstays, hsame⟩ := hgrows.gone hung
    rw [Link.hungUp, Side.other_other, hnow, hsame, ← hwas]
    exact ⟨hstays, hlen⟩

/-- What arrives on the stream changes nothing that the nodes have written or removed. -/
theorem outside (inv : LinkInv codec link s)
    (hk : ∃ inbound closed, s'.nodes k = { s.nodes k with inbound, closed })
    (hother : s'.nodes k.other = s.nodes k.other) (htaken : s'.taken k.other = s.taken k.other)
    (hattending : Attending codec (s'.nodes k) (link.them k) (link.stream k)
      ((link.incoming s k).take (s'.taken k)))
    (hle : s'.taken k ≤ (link.incoming s k).length)
    (hclosed : (s'.nodes k).closed (link.stream k) = true →
      link.hungUp s k.other = true ∧ s'.taken k = (link.incoming s k).length) :
    LinkInv codec link s' := by
  obtain ⟨hwritten, haborted, hattached⟩ :
      (s'.nodes k).written = (s.nodes k).written ∧ (s'.nodes k).aborted = (s.nodes k).aborted ∧
        Attached codec (link.them k) (link.stream k) (s'.nodes k) := by
    obtain ⟨inbound, closed, heq⟩ := hk
    have h := inv.attached k
    rw [heq]
    exact ⟨rfl, rfl, ⟨h.numbered.entries, h.numbered.tasks, h.numbered.aborted,
      h.numbered.written⟩, h.lt, h.entry, h.only, h.own, h.removing, h.quit, h.carried, h.calls⟩
  have hincoming : ∀ j, link.incoming s' j = link.incoming s j := by
    refine Side.both k ?_ ?_
    · rw [Link.incoming, hother]
      rfl
    · rw [Link.incoming, Link.incoming, Side.other_other, hwritten]
  have hhung : ∀ j, link.hungUp s' j = link.hungUp s j := by
    refine Side.both k ?_ ?_
    · rw [Link.hungUp, haborted]
      rfl
    · rw [Link.hungUp, hother]
      rfl
  refine ⟨Side.both k hattached ?_, Side.both k ?_ ?_, Side.both k ?_ ?_, Side.both k ?_ ?_⟩
  · rw [hother]
    exact inv.attached k.other
  · rw [hincoming]
    exact hattending
  · rw [hother, hincoming, htaken]
    exact inv.attending k.other
  · rw [hincoming]
    exact hle
  · rw [hincoming, htaken]
    exact inv.taken k.other
  · rw [hincoming, hhung]
    exact hclosed
  · rw [hother, hincoming, hhung, htaken]
    exact inv.closed k.other

theorem deliver (inv : LinkInv codec link s) (h : link.step codec s (.deliver k) = some s') :
    LinkInv codec link s' := by
  obtain ⟨p, hp, hopen, hself, hother, htaken⟩ := deliver_spec h
  have hnext : s'.taken k = s.taken k + 1 := by
    rw [htaken]
    exact Function.update_self _ _ _
  refine inv.outside ⟨_, _, hself⟩ hother ?_ ?_ ?_ ?_
  · rw [htaken]
    exact Function.update_of_ne k.other_ne _ _
  · rw [hself, hnext, List.take_add_one, hp]
    exact (inv.attending k).arrive rfl (Function.update_self _ _ _) rfl
  · rw [hnext]
    exact (List.getElem?_eq_some_iff.mp hp).1
  · rw [hself]
    intro hc
    exact absurd (hopen.symm.trans hc) (by decide)

theorem hangUp (inv : LinkInv codec link s) (h : link.step codec s (.hangUp k) = some s') :
    LinkInv codec link s' := by
  obtain ⟨hung, hlen, hself, hother, htaken⟩ := hangUp_spec h
  refine inv.outside ⟨_, _, hself⟩ hother (by rw [htaken]) ?_ ?_ fun _ => ⟨hung, ?_⟩
  · rw [hself, htaken]
    exact (inv.attending k).congr rfl rfl id
  · rw [htaken]
    exact inv.taken k
  · rw [htaken]
    exact Nat.le_antisymm (inv.taken k) hlen

theorem step (inv : LinkInv codec link s) (hquit : Carried codec (.quit quitReceived))
    (hdec : ∀ p body, codec.rawBytes p = .ok body → codec.fromRawBytes body = .ok p)
    {l : LinkLabel} (hcivil : link.Civil codec s l) (h : link.step codec s l = some s') :
    LinkInv codec link s' := by
  cases l with
  | deliver k => exact inv.deliver h
  | hangUp k => exact inv.hangUp h
  | node k l => exact inv.nodeStep hquit hdec hcivil h

/-! ### Quiescent states -/

theorem isAlive (inv : LinkInv codec link s) (h : link.hungUp s k = false) :
    ((s.nodes k).tasks (link.stream k)).isAlive = true := by
  cases inv.attending k with
  | reading task => rw [task]; rfl
  | handling task => rw [task]; rfl
  | ended task aborted =>
    rw [Link.hungUp, aborted] at h
    cases h

/-- **Where nothing is in flight**, a side has removed the connection if the other has. -/
theorem hungUp_of_quiescent (inv : LinkInv codec link s) (hquiet : link.Quiescent s)
    (h : link.hungUp s k.other = true) : link.hungUp s k = true := by
  by_contra ha
  obtain ⟨htask, hin, htaken⟩ := hquiet k (inv.isAlive (by simpa using ha))
  have hquits := inv.hasQuit_of_hungUp h
  cases inv.attending k with
  | @reading got handled pending task split bytes within quit =>
    rw [htask] at task
    cases task
    -- nothing is pending, so the Quit has been dealt with
    have hpending : pending = [] := by
      cases pending with
      | nil => rfl
      | cons p rest =>
        rw [hin, List.flatMap_cons] at bytes
        exact absurd (List.append_eq_nil_iff.mp bytes.symm).1 (frame_ne_nil _)
    rw [hpending, List.append_nil, htaken, List.take_length] at split
    exact ha (quit (split ▸ hquits))
  | handling task =>
    rw [htask] at task
    cases task
  | ended task aborted => exact ha aborted

end LinkInv

/-! ### What is left to read -/

/-- How much is left of a call of `on_packet`, at most. -/
def Handler.todo : Handler → ℕ
  | .start _ => 6
  | .disconnecting .quitting _ => 5
  | .disconnecting .removing _ => 4
  | .disconnecting .announcing _ => 3
  | .listPeers _ => 4
  | .reply _ _ => 3
  | .fire _ => 2
  | .finished => 2

/-- How much is left to a read task of what it has read.  A frame has four bytes at least,
which is enough for a call of `on_packet`. -/
def ReadTask.todo : ReadTask → ℕ
  | .reading _ _ got => 2 * got.length + 1
  | .handling _ _ handler => handler.todo
  | _ => 0

theorem Handler.two_le_todo (handler : Handler) : 2 ≤ handler.todo := by
  cases handler with
  | disconnecting stage q => cases stage <;> simp [todo]
  | _ => simp [todo]

/-- **A section of `on_packet` gets on.** -/
theorem todo_handlerSection {s u : NodeState} {n m : PeerID} {stream : StreamId} {writes : Bool}
    {shuffle : Shuffle} {handler handler' : Handler}
    (h : s.handlerSection codec n writes shuffle handler = some (u, handler')) :
    (ReadTask.resume m stream handler').todo < handler.todo := by
  have hresume : ∀ handler : Handler, (ReadTask.resume m stream handler).todo ≤ handler.todo := by
    intro handler
    cases handler with
    | finished => exact Nat.le_succ 1
    | _ => exact Nat.le_refl _
  cases handler with
  | start p =>
    refine (hresume handler').trans_lt ?_
    rw [handlerSection] at h
    split at h
    · rename_i r dht hp
      cases h
      have hstop := firstStop_onPacket hp
      cases handler' with
      | start p' => exact absurd rfl (hstop.ne_start p')
      | disconnecting stage q => cases stage <;> simp [Handler.todo]
      | _ => simp [Handler.todo]
    · cases h
  | listPeers p =>
    cases h
    exact Nat.lt_succ_self _
  | reply response p =>
    rw [handlerSection] at h
    split at h
    · cases h
      exact Nat.lt_succ_self _
    · cases h
  | fire p =>
    cases h
    exact Nat.lt_succ_self _
  | disconnecting stage q =>
    refine (hresume handler').trans_lt ?_
    rw [handlerSection] at h
    split at h
    · rename_i next hsec
      cases h
      rcases disconnectSection_cases hsec with ⟨rfl, rfl, -⟩ | ⟨rfl, ⟨rfl, -⟩ | ⟨peer, rfl, -⟩⟩ |
        ⟨rfl, rfl, -⟩
      · exact Nat.lt_succ_self _
      · exact (Nat.lt_succ_self _).trans (Nat.lt_succ_self _)
      · exact Nat.lt_succ_self _
      · exact Nat.lt_succ_self _
    · cases h
  | finished =>
    cases h
    exact Nat.lt_succ_self _

theorem four_le_of_complete {max : ℕ} {bytes body rest : Bytes}
    (h : parse max bytes = .complete body rest) : 4 ≤ bytes.length := by
  rw [parse] at h
  split at h
  · cases h
  · omega

/-- How much a read task has before it, as far as it has arrived. -/
def NodeState.backlog (s : NodeState) (stream : StreamId) : ℕ :=
  3 * (s.inbound stream).length + (s.tasks stream).todo

/-- **A poll gets on**: with the next byte, with the frame that is complete, or with its
packet. -/
theorem backlog_pollTask {s s' : NodeState} {n : PeerID} {stream : StreamId}
    {packets : List Packet} (inv : Attending codec s n stream packets) {writes : Bool}
    {shuffle : Shuffle} (h : s.pollTask codec stream writes shuffle = some s') :
    s'.backlog stream < s.backlog stream := by
  have hself : ∀ {u : NodeState} {task : ReadTask}, u.inbound stream = s.inbound stream →
      task.todo < (s.tasks stream).todo → (u.setTask stream task).backlog stream <
        s.backlog stream := by
    intro u task hin hlt
    have htask : (u.setTask stream task).tasks stream = task := tasks_setTask_self _ _ _
    have hin' : (u.setTask stream task).inbound stream = s.inbound stream := hin
    rw [backlog, backlog, htask, hin']
    omega
  have hpos : (s.tasks stream).isAlive = true → 0 < (s.tasks stream).todo := by
    intro halive
    cases htask : s.tasks stream with
    | reading n stream' got => exact Nat.succ_pos _
    | handling n stream' handler => exact Nat.zero_lt_of_lt handler.two_le_todo
    | _ =>
      rw [htask] at halive
      cases halive
  rcases pollTask_cases h with ⟨m, stream', got, ht, hcase⟩ | ⟨m, stream', handler, ht, hcase⟩
  · obtain rfl : stream' = stream := by
      cases inv with
      | reading task => rw [ht] at task; cases task; rfl
      | handling task => rw [ht] at task; cases task
      | ended task => rw [ht] at task; rcases task with task | task <;> cases task
    rcases hcase with ⟨b, rest, hin, -, rfl⟩ | ⟨-, -, -, rfl⟩ | ⟨-, rfl⟩ |
      ⟨body, rest, handler, hparse, hhandler, rfl⟩
    · have htask : ({ s with inbound := Function.update s.inbound stream' rest }.setTask stream'
          (.reading m stream' (got ++ [b]))).tasks stream' = .reading m stream' (got ++ [b]) :=
        tasks_setTask_self _ _ _
      have hrest : ({ s with inbound := Function.update s.inbound stream' rest }.setTask stream'
          (.reading m stream' (got ++ [b]))).inbound stream' = rest := Function.update_self _ _ _
      rw [backlog, backlog, htask, hrest, hin, ht]
      simp only [ReadTask.todo, List.length_append, List.length_cons, List.length_nil]
      omega
    · exact hself rfl (hpos (by rw [ht]; rfl))
    · exact hself rfl (hpos (by rw [ht]; rfl))
    · refine hself rfl ?_
      have hfour := four_le_of_complete hparse
      have hle : (ReadTask.resume m stream' handler).todo ≤ 6 := by
        rcases hhandler with ⟨e, -, rfl⟩ | ⟨p, -, rfl⟩
        · exact Nat.le_add_left 1 5
        · exact Nat.le_refl 6
      rw [ht]
      show _ < 2 * got.length + 1
      omega
  · rcases hcase with ⟨-, rfl⟩ | ⟨u, handler', hsec, rfl⟩
    · exact hself rfl (hpos (by rw [ht]; rfl))
    · refine hself (congrFun (Attached.inbound_handlerSection hsec).2.1 _) ?_
      rw [ht]
      exact todo_handlerSection hsec

namespace Link

variable (link : Link)

/-- How much the read task of a side has before it, with what is still on its way. -/
def backlog (codec : Codec Bytes) (s : LinkState) (k : Side) : ℕ :=
  (((link.incoming s k).drop (s.taken k)).map fun p => 3 * (packetFrame codec p).length + 1).sum +
    (s.nodes k).backlog (link.stream k)

/-- A step by which a side gets on with what was written for it. -/
def Reads (k : Side) : LinkLabel → Bool
  | .deliver k' => k' = k
  | .node k' (.poll t _ _) => k' = k && t = link.stream k
  | _ => false

end Link

namespace LinkInv

variable {link : Link} {s s' : LinkState} {k : Side}

/-- A side that has removed the connection writes nothing more on it. -/
theorem gone_nodeStep (inv : LinkInv codec link s) (hquit : Carried codec (.quit quitReceived))
    (hung : link.hungUp s k.other = true) {j : Side} {l : NodeLabel}
    (hcivil : link.Civil codec s (.node j l)) (h : Link.nodeStep codec s j l = some s') :
    link.hungUp s' k.other = true ∧ link.incoming s' k = link.incoming s k := by
  obtain ⟨hnode, hother, -⟩ := nodeStep_spec h
  rw [Link.hungUp, Link.incoming]
  by_cases hj : k = j
  · subst hj
    rw [hother]
    exact ⟨hung, rfl⟩
  · obtain rfl := Side.eq_other hj
    exact ((inv.attached k.other).step hquit hcivil hnode).2.gone hung

theorem backlog_congr (hnodes : s'.nodes k = s.nodes k)
    (hincoming : link.incoming s' k = link.incoming s k) (htaken : s'.taken k = s.taken k) :
    link.backlog codec s' k = link.backlog codec s k := by
  rw [Link.backlog, Link.backlog, hincoming, htaken, hnodes]

/-- **A side gets on** with what the other has left behind, whenever it reads, and nobody sets
it back. -/
theorem backlog_step (inv : LinkInv codec link s) (hquit : Carried codec (.quit quitReceived))
    (hung : link.hungUp s k.other = true) {l : LinkLabel} (hcivil : link.Civil codec s l)
    (h : link.step codec s l = some s') : link.hungUp s' k.other = true ∧
      link.backlog codec s' k + (if link.Reads k l then 1 else 0) ≤ link.backlog codec s k := by
  cases l with
  | deliver j =>
    obtain ⟨p, hp, -, hself, hother, htaken⟩ := deliver_spec h
    by_cases hj : j = k
    · subst hj
      obtain ⟨hlt, hget⟩ := List.getElem?_eq_some_iff.mp hp
      have hincoming : link.incoming s' j = link.incoming s j := by
        rw [Link.incoming, hother]
        rfl
      have hdrop : (link.incoming s j).drop (s.taken j) =
          p :: (link.incoming s j).drop (s'.taken j) := by
        rw [htaken, Function.update_self, ← hget]
        exact List.drop_eq_getElem_cons hlt
      have hin : (s'.nodes j).inbound (link.stream j) =
          (s.nodes j).inbound (link.stream j) ++ packetFrame codec p := by
        rw [hself]
        exact Function.update_self _ _ _
      have htask : (s'.nodes j).tasks = (s.nodes j).tasks := by rw [hself]
      have hreads : link.Reads j (.deliver j) = true := decide_eq_true rfl
      rw [Link.hungUp, hother, Link.backlog, Link.backlog, hincoming, hdrop, NodeState.backlog,
        NodeState.backlog, hin, htask, hreads, List.map_cons, List.sum_cons, List.length_append,
        if_pos rfl]
      exact ⟨hung, by omega⟩
    · obtain rfl : k = j.other := Side.eq_other hj
      have hreads : link.Reads j.other (.deliver j) = false := decide_eq_false hj
      have hwritten : (s'.nodes j).written = (s.nodes j).written := by rw [hself]
      rw [Link.hungUp, Side.other_other, hreads]
      refine ⟨?_, Nat.le_of_eq (backlog_congr hother ?_ ?_)⟩
      · rw [Link.hungUp, Side.other_other] at hung
        rw [hself]
        exact hung
      · rw [Link.incoming, Link.incoming, Side.other_other, hwritten]
      · rw [htaken]
        exact Function.update_of_ne j.other_ne _ _
  | hangUp j =>
    obtain ⟨-, -, hself, hother, htaken⟩ := hangUp_spec h
    by_cases hj : j = k
    · subst hj
      have hincoming : link.incoming s' j = link.incoming s j := by
        rw [Link.incoming, hother]
        rfl
      rw [Link.hungUp, hother, Link.backlog, hincoming, htaken, hself]
      exact ⟨hung, Nat.le_refl _⟩
    · obtain rfl : k = j.other := Side.eq_other hj
      have hwritten : (s'.nodes j).written = (s.nodes j).written := by rw [hself]
      rw [Link.hungUp, Side.other_other]
      refine ⟨?_, Nat.le_of_eq (backlog_congr hother ?_ (by rw [htaken]))⟩
      · rw [Link.hungUp, Side.other_other] at hung
        rw [hself]
        exact hung
      · rw [Link.incoming, Link.incoming, Side.other_other, hwritten]
  | node j l =>
    obtain ⟨hung', hincoming⟩ := inv.gone_nodeStep hquit hung hcivil h
    obtain ⟨hnode, hother, htaken⟩ := nodeStep_spec h
    refine ⟨hung', ?_⟩
    by_cases hj : j = k
    · subst hj
      have hle : (s'.nodes j).backlog (link.stream j) +
          (if link.Reads j (.node j l) then 1 else 0) ≤ (s.nodes j).backlog (link.stream j) := by
        by_cases hl : Attached.IsOwn (link.stream j) l
        · cases l with
          | poll t writes shuffle =>
            obtain rfl : t = link.stream j := hl
            have hlt := backlog_pollTask (inv.attending j) hnode
            split
            · exact hlt
            · exact hlt.le
          | cancel t =>
            obtain rfl : t = link.stream j := hl
            rw [NodeState.step] at hnode
            split at hnode
            · have htask : (s'.nodes j).tasks (link.stream j) = .cancelled := by
                rw [← Option.some.inj hnode]
                exact tasks_setTask_self _ _ _
              have hin : (s'.nodes j).inbound = (s.nodes j).inbound := by
                rw [← Option.some.inj hnode]
                rfl
              rw [NodeState.backlog, NodeState.backlog, htask, hin]
              exact Nat.le_add_right _ _
            · cases hnode
          | _ => exact hl.elim
        · have hreads : link.Reads j (.node j l) = false := by
            cases l with
            | poll t writes shuffle => simpa [Link.Reads, Attached.IsOwn] using hl
            | _ => rfl
          obtain ⟨htasks, hin, -⟩ := (inv.attached j).frame hcivil hl hnode
          rw [hreads, NodeState.backlog, NodeState.backlog, htasks, hin]
          exact Nat.le_refl _
      rw [Link.backlog, Link.backlog, hincoming, htaken, Nat.add_assoc]
      exact Nat.add_le_add_left hle _
    · obtain rfl : k = j.other := Side.eq_other hj
      have hreads : link.Reads j.other (.node j l) = false := by
        cases l with
        | poll t writes shuffle => simp [Link.Reads, hj]
        | _ => rfl
      rw [hreads]
      exact Nat.le_of_eq (backlog_congr hother hincoming (by rw [htaken]))

/-- **A side is not stuck** as long as there is a Quit that it has not dealt with. -/
theorem exists_reads (inv : LinkInv codec link s) (hung : link.hungUp s k.other = true)
    (hholds : link.hungUp s k = false) :
    ∃ l t, link.Reads k l = true ∧ link.step codec s l = some t := by
  rcases Nat.lt_or_ge (s.taken k) (link.incoming s k).length with hlt | hge
  · have hopen : (s.nodes k).closed (link.stream k) = false := by
      by_contra hc
      exact hlt.ne (inv.closed k (by simpa using hc)).2
    refine ⟨.deliver k, ?_⟩
    rw [Link.step, List.getElem?_eq_getElem hlt]
    simp only [Link.nodeStep, NodeState.step, hopen]
    exact ⟨_, decide_eq_true rfl, rfl⟩
  · have hall : (link.incoming s k).take (s.taken k) = link.incoming s k :=
      List.take_of_length_le hge
    obtain ⟨node, hnode⟩ : ∃ node, (s.nodes k).pollTask codec (link.stream k) true
        ⟨id, Shuffle.perm_id⟩ = some node := by
      cases inv.attending k with
      | @reading got handled pending task split bytes within quit =>
        have hpending : ∀ p ∈ pending, Carried codec p := fun p hp =>
          inv.carried p (List.mem_of_mem_take (split ▸ List.mem_append_right handled hp))
        rcases parse_got hpending bytes within with ⟨hparse, hnext⟩ | ⟨p, rest, -, -, hparse⟩
        · cases hin : (s.nodes k).inbound (link.stream k) with
          | cons b rest =>
            simp only [NodeState.pollTask, task, hparse, hin]
            exact ⟨_, rfl⟩
          | nil =>
            -- everything has been read, the Quit as well
            rw [hin, List.append_nil] at bytes
            rcases hnext with ⟨rfl, -⟩ | ⟨p, rest, rfl, hlt⟩
            · rw [List.append_nil, hall] at split
              have ha := quit (split ▸ inv.hasQuit_of_hungUp hung)
              rw [Link.hungUp, ha] at hholds
              cases hholds
            · rw [bytes, List.flatMap_cons, List.length_append] at hlt
              omega
        · simp only [NodeState.pollTask, task, hparse]
          split
          · exact ⟨_, rfl⟩
          · exact ⟨_, rfl⟩
      | handling task =>
        simp only [NodeState.pollTask, task]
        split
        · exact ⟨_, rfl⟩
        · exact ⟨_, rfl⟩
      | ended task aborted =>
        rw [Link.hungUp, aborted] at hholds
        cases hholds
    refine ⟨.node k (.poll (link.stream k) true ⟨id, Shuffle.perm_id⟩), s.setNode k node, ?_, ?_⟩
    · simp [Link.Reads]
    · rw [Link.step, Link.nodeStep, NodeState.step, hnode]
      rfl

theorem countP_reads_le (inv : LinkInv codec link s) (hquit : Carried codec (.quit quitReceived))
    (hdec : ∀ p body, codec.rawBytes p = .ok body → codec.fromRawBytes body = .ok p)
    (hung : link.hungUp s k.other = true) {more : List LinkLabel} {t : LinkState}
    (hcivil : Meets (link.step codec) (link.Civil codec) s more)
    (hr : exec (link.step codec) s more = some t) :
    link.hungUp t k.other = true ∧ more.countP (link.Reads k) ≤ link.backlog codec s k := by
  induction more generalizing s with
  | nil =>
    cases hr
    exact ⟨hung, Nat.zero_le _⟩
  | cons l more ih =>
    obtain ⟨u, hu, hr⟩ := exec_cons_eq_some.mp hr
    obtain ⟨hl, hmore⟩ := (meets_cons hu).mp hcivil
    obtain ⟨hung', hle⟩ := inv.backlog_step hquit hung hl hu
    obtain ⟨hung'', hcount⟩ := ih (inv.step hquit hdec hl hu) hung' hmore hr
    refine ⟨hung'', ?_⟩
    rw [List.countP_cons]
    omega

end LinkInv

/-! ### Runs -/

/-- **There are no half-open connections.**  Two nodes have just inserted each other, with no
removal under way (`Joined`).  They send each other packets, handle them and call `disconnect` in
any order, while other peers come and go.  What they write to each other is written, as frames
that can be read, and is none of the packets of a handshake (`Civil`, `Carried`).  In every
state, a side that has the connection has a read task that is alive.  If nothing is in flight
both sides have the connection or neither has.  And once a side has removed it, the other one,
as long as it has it, can get on with reading what was written, and it cannot do that forever:
the number of its steps is bounded, whatever else happens in between. -/
theorem disconnections_are_mutual {link : Link} (hquit : Carried codec (.quit quitReceived))
    (hdec : ∀ p body, codec.rawBytes p = .ok body → codec.fromRawBytes body = .ok p)
    {s₀ s : LinkState} {ls : List LinkLabel}
    (hjoined : ∀ k, Joined codec (link.them k) (link.stream k) (s₀.nodes k))
    (htaken : ∀ k, s₀.taken k = 0) (hr : exec (link.step codec) s₀ ls = some s)
    (hcivil : Meets (link.step codec) (link.Civil codec) s₀ ls) :
    (∀ k, link.Holds s k → ((s.nodes k).tasks (link.stream k)).isAlive = true) ∧
    (link.Quiescent s → (link.Holds s .left ↔ link.Holds s .right)) ∧
    ∀ k, ¬ link.Holds s k.other →
      (link.Holds s k → ∃ l t, link.Reads k l = true ∧ link.step codec s l = some t) ∧
      ∀ more t, Meets (link.step codec) (link.Civil codec) s more →
        exec (link.step codec) s more = some t → ¬ link.Holds t k.other ∧
          more.countP (link.Reads k) ≤ link.backlog codec s k := by
  have hinv : LinkInv codec link s := invariant_of_meets
    (fun _ _ _ inv hok hstep => LinkInv.step inv hquit hdec hok hstep) hcivil hr
    (.init hjoined htaken)
  have hgone : ∀ {u : LinkState} {k : Side}, LinkInv codec link u →
      (¬ link.Holds u k ↔ link.hungUp u k = true) := fun inv => by
    rw [inv.holds_iff, Bool.not_eq_false]
  refine ⟨fun k h => hinv.isAlive (hinv.holds_iff.mp h), fun hquiet => ?_, fun k hother => ?_⟩
  · rw [← not_iff_not, hgone hinv, hgone hinv]
    exact ⟨fun h => hinv.hungUp_of_quiescent (k := .right) hquiet h,
      fun h => hinv.hungUp_of_quiescent (k := .left) hquiet h⟩
  · have hung := (hgone hinv).mp hother
    refine ⟨fun h => hinv.exists_reads hung (hinv.holds_iff.mp h), fun more t hmore ht => ?_⟩
    obtain ⟨hung', hle⟩ := hinv.countP_reads_le hquit hdec hung hmore ht
    have hinv' : LinkInv codec link t := invariant_of_meets
      (fun _ _ _ inv hok hstep => LinkInv.step inv hquit hdec hok hstep) hmore ht hinv
    exact ⟨(hgone hinv').mpr hung', hle⟩

/-- Two nodes that have just inserted each other. -/
def newLink : Link where
  them
    | .left => ⟨realSha256 [1]⟩
    | .right => ⟨realSha256 []⟩
  stream _ := 0

def newLinkState (codec : Codec Bytes) : LinkState where
  nodes k := (NodeState.init (newLink.them k.other)).insertPeer codec (newLink.them k) "local-1"
  taken _ := 0

theorem joined_newLink (k : Side) :
    Joined codec (newLink.them k) (newLink.stream k) ((newLinkState codec).nodes k) := by
  refine joined_insertPeer (.init _) "local-1" (by simp [NodeState.init, ConnectionPool.new])
    (fun t ht => ht) rfl rfl ?_ fun d quit stage hd => ?_
  · rintro (⟨d, q, hd⟩ | ⟨t, stream, q, ht⟩)
    · cases hd
    · cases ht
  · cases hd

/-- One of the two calls `disconnect`. -/
def leftDisconnects : List LinkLabel :=
  [.node .left (.callDisconnect 0 (newLink.them .left) quitReceived),
    .node .left (.disconnect 0 true), .node .left (.disconnect 0 true)]

theorem exec_leftDisconnects {body : Bytes}
    (h : codec.rawBytes (.quit quitReceived) = .ok body) :
    ∃ s, exec (newLink.step codec) (newLinkState codec) leftDisconnects = some s ∧
      ¬ newLink.Holds s .left ∧ newLink.Holds s .right := by
  simp [leftDisconnects, exec_cons, Link.step, Link.nodeStep, newLinkState, LinkState.setNode,
    NodeState.step, NodeState.insertPeer, NodeState.init, ConnectionPool.new, setDisconnect, setTask,
    NodeState.disconnectSection, sendPacketUnchecked, h, ConnectionPool.getElem?_insert,
    ConnectionPool.getElem?_remove, DisconnectCall.resume, Function.update, NodeState.removePeer,
    NodeState.wrote, Link.Holds, newLink]

/-- Then the other one can read of it. -/
theorem disconnections_are_mutual_left : ∃ s,
    exec (newLink.step (listCodec [.quit quitReceived]))
      (newLinkState (listCodec [.quit quitReceived])) leftDisconnects = some s ∧
    ∃ l t, newLink.Reads .right l = true ∧
      newLink.step (listCodec [.quit quitReceived]) s l = some t := by
  have hraw : (listCodec [.quit quitReceived]).rawBytes (.quit quitReceived) = .ok [0] := by
    simp [listCodec]
  have hquit : Carried (listCodec [.quit quitReceived]) (.quit quitReceived) :=
    ⟨⟨[0], hraw, by decide⟩, rfl⟩
  obtain ⟨s, hr, hleft, hright⟩ := exec_leftDisconnects hraw
  refine ⟨s, hr, ?_⟩
  refine ((disconnections_are_mutual hquit (fun p body h => listCodec_decodes (by decide) h)
    joined_newLink (fun _ => rfl) hr ?_).2.2 .right hleft).1 hright
  refine meets_of_forall fun l hl s => ?_
  simp only [leftDisconnects, List.mem_cons, List.not_mem_nil, or_false] at hl
  rcases hl with rfl | rfl | rfl
  · exact fun _ => hquit
  · exact fun _ _ _ => rfl
  · exact fun _ _ _ => rfl

end Tewta
