import Tewta.Handshake.Course
import Tewta.Node.System

/-!
# A node with its handshakes

The node of `NodeState` takes an `insert` from nowhere.  Here every `insert` ends
a call of `handshake`: `JoinState` has, beside the node, any number of calls, each
at a stage of `handshake_raw`, and `JoinState.step` lets them and the rest of the
node take turns in any order.  The remote is arbitrary: a frame that is read is
whatever bytes the label says.

`Stranger` is what the check for `SamePeer` comes to over every run: the id of the
node itself is neither in the pool nor at the other end of a call that has passed
the check.
-/

namespace Tewta

open Duplex Transition NodeState PeerID

variable {PrivateKey Seed : Type} {crates : Crates Bytes PrivateKey Seed}

/-- A call of `handshake`. -/
inductive JoinCall (Seed : Type)
  | notCalled
  | running (expectedPeerId : Option PeerID) (draws : Draws Seed) (stage : Stage)
  | returned
  | dropped

/-- A node and its calls of `handshake`, by number. -/
structure JoinState (Seed : Type) where
  node : NodeState
  calls : ℕ → JoinCall Seed

inductive JoinLabel (Seed : Type)
  /-- `handshake` is called on a new stream -/
  | start (c : ℕ) (expectedPeerId : Option PeerID) (draws : Draws Seed)
  /-- the frame of the stage is written -/
  | write (c : ℕ)
  /-- a frame arrives -/
  | read (c : ℕ) (body : Bytes)
  /-- reading or writing fails -/
  | fail (c : ℕ) (e : ExternalError)
  /-- the pool is asked -/
  | check (c : ℕ)
  /-- `handshake_raw` has returned -/
  | finish (c : ℕ)
  /-- the call is dropped, as when it times out -/
  | drop (c : ℕ)
  /-- anything else the node does -/
  | node (l : NodeLabel)

def NodeLabel.isInsert : NodeLabel → Bool
  | .insert _ _ => true
  | _ => false

namespace JoinState

def setCall (s : JoinState Seed) (c : ℕ) (call : JoinCall Seed) : JoinState Seed :=
  { s with calls := Function.update s.calls c call }

def setNode (s : JoinState Seed) (node : NodeState) : JoinState Seed := { s with node := node }

/-- A node that knows nobody. -/
def init (identity : Identity crates) : JoinState Seed where
  node := NodeState.init identity.peerId
  calls _ := .notCalled

/-- What a call makes of a label, at the stage it is at; `expectedPeerId` and `draws`
are in `ep`. -/
def advance (ep : Endpoint crates) (pool : ConnectionPool) (stage : Stage) :
    JoinLabel Seed → Option Stage
  | .write _ =>
    match stage.awaits ep with
    | .write (.ok _) => some stage.sent
    | .write (.error e) => some (stage.failed e)
    | _ => none
  | .read _ body =>
    match stage.awaits ep with
    | .frame =>
      if body.length < maxPacketSize then some (stage.received ep body)
      else some (stage.failed .packetTooLarge)
    | _ => none
  | .fail _ e =>
    match stage.awaits ep with
    | .write _ => some (stage.failed (.ioError e))
    | .frame => some (stage.failed (.ioError e))
    | _ => none
  | .check _ =>
    match stage.awaits ep with
    | .contains peerId => some (stage.checked (pool.contains peerId))
    | _ => none
  | _ => none

/-- The call of a label takes a step of `handshake_raw`. -/
def handshakeRaw (identity : Identity crates) (s : JoinState Seed) (c : ℕ)
    (l : JoinLabel Seed) : Option (JoinState Seed) :=
  match s.calls c with
  | .running expectedPeerId draws stage =>
    match advance ⟨identity, expectedPeerId, draws⟩ s.node.pool stage l with
    | some stage => some (s.setCall c (.running expectedPeerId draws stage))
    | none => none
  | _ => none

/-- One step of a node with its handshakes. -/
def step (identity : Identity crates) (s : JoinState Seed) :
    JoinLabel Seed → Option (JoinState Seed)
  | .start c expectedPeerId draws =>
    match s.calls c with
    | .notCalled => some (s.setCall c (.running expectedPeerId draws .sendVersion))
    | _ => none
  | .finish c =>
    match s.calls c with
    | .running _ _ (.ok theirPeerId addr _) =>
      some ((s.setNode (s.node.insertPeer crates.toCodec theirPeerId addr)).setCall c .returned)
    | .running _ _ (.err _) => some (s.setCall c .returned)
    | _ => none
  | .drop c =>
    match s.calls c with
    | .running _ _ _ => some (s.setCall c .dropped)
    | _ => none
  | .node l => if l.isInsert then none else (s.node.step crates.toCodec l).map s.setNode
  | .write c => s.handshakeRaw identity c (.write c)
  | .read c body => s.handshakeRaw identity c (.read c body)
  | .fail c e => s.handshakeRaw identity c (.fail c e)
  | .check c => s.handshakeRaw identity c (.check c)

/-- What one step can be. -/
inductive Joined (identity : Identity crates) (s : JoinState Seed) : JoinState Seed → Prop
  | start {c expectedPeerId draws} :
      Joined identity s (s.setCall c (.running expectedPeerId draws .sendVersion))
  | advance {c expectedPeerId draws stage stage' l} :
      s.calls c = .running expectedPeerId draws stage →
      JoinState.advance ⟨identity, expectedPeerId, draws⟩ s.node.pool stage l = some stage' →
      Joined identity s (s.setCall c (.running expectedPeerId draws stage'))
  | insert {c expectedPeerId draws theirPeerId addr aesKey} :
      s.calls c = .running expectedPeerId draws (.ok theirPeerId addr aesKey) →
      Joined identity s
        ((s.setNode (s.node.insertPeer crates.toCodec theirPeerId addr)).setCall c .returned)
  | ends {c call} : call = .returned ∨ call = .dropped → Joined identity s (s.setCall c call)
  | node {l node} : l.isInsert = false → s.node.step crates.toCodec l = some node →
      Joined identity s (s.setNode node)

theorem handshakeRaw_cases {identity : Identity crates} {s s' : JoinState Seed} {c : ℕ}
    {l : JoinLabel Seed} (h : s.handshakeRaw identity c l = some s') : Joined identity s s' := by
  rw [handshakeRaw] at h
  split at h
  · rename_i hcall
    split at h
    · rename_i hstage
      cases h
      exact .advance hcall hstage
    · cases h
  · cases h

theorem step_cases {identity : Identity crates} {s s' : JoinState Seed} {l : JoinLabel Seed}
    (h : s.step identity l = some s') : Joined identity s s' := by
  cases l with
  | start c expectedPeerId draws =>
    rw [step] at h
    split at h
    · cases h
      exact .start
    · cases h
  | finish c =>
    rw [step] at h
    split at h
    · rename_i hcall
      cases h
      exact .insert hcall
    · cases h
      exact .ends (Or.inl rfl)
    · cases h
  | drop c =>
    rw [step] at h
    split at h
    · cases h
      exact .ends (Or.inr rfl)
    · cases h
  | node l =>
    rw [step] at h
    split at h
    · cases h
    · rename_i hl
      obtain ⟨node, hnode, rfl⟩ := Option.map_eq_some_iff.mp h
      exact .node (Bool.not_eq_true _ ▸ hl) hnode
  | write c => exact handshakeRaw_cases h
  | read c body => exact handshakeRaw_cases h
  | fail c e => exact handshakeRaw_cases h
  | check c => exact handshakeRaw_cases h

end JoinState

/-! ### The peer at the other end -/

/-- The peer at the other end, from the check of its identity on. -/
def Stage.theirPeerId? (crates : Crates Bytes PrivateKey Seed) : Stage → Option PeerID
  | .checkPool theirPublicKey _ => some (fromRsaPublicKey crates.sha256 theirPublicKey)
  | .sendAes theirPublicKey _ => some (fromRsaPublicKey crates.sha256 theirPublicKey)
  | .recvAes theirPublicKey => some (fromRsaPublicKey crates.sha256 theirPublicKey)
  | .sendEhlo theirPeerId _ => some theirPeerId
  | .recvEhlo theirPeerId _ => some theirPeerId
  | .ok theirPeerId _ _ => some theirPeerId
  | _ => none

section Stages

variable (ep : Endpoint crates) {stage : Stage} {n : PeerID}

/-- What a step of a call says about the peer at the other end: nothing new, or
that it has another id than this node. -/
def Stage.Learns (stage stage' : Stage) : Prop :=
  ∀ n, stage'.theirPeerId? crates = some n →
    stage.theirPeerId? crates = some n ∨ n ≠ ep.identity.peerId

theorem learns_err (e : HandshakeError) : Stage.Learns ep stage (.err e) := by
  intro n h
  cases h

theorem learns_decoded {next : Packet → Stage} (body : Bytes)
    (h : ∀ p, Stage.Learns ep stage (next p)) : Stage.Learns ep stage (decoded crates next body) := by
  rw [decoded]
  split
  · exact h _
  · exact learns_err ep _

theorem learns_received (body : Bytes) : Stage.Learns ep stage (stage.received ep body) := by
  cases stage with
  | recvVersion =>
    refine learns_decoded ep body fun p => ?_
    rcases receivedVersion_cases p with heq | ⟨e, heq⟩
    · rw [heq]
      intro n h
      cases h
    · rw [heq]
      exact learns_err ep e
  | recvRsa =>
    refine learns_decoded ep body fun p => ?_
    rcases receivedRsa_cases ep p with ⟨q, key, -, -, -, hne, -, heq⟩ | ⟨e, heq⟩
    · rw [heq]
      intro n h
      cases h
      exact Or.inr hne
    · rw [heq]
      exact learns_err ep e
  | recvAes key =>
    rw [Stage.received]
    split
    · refine learns_decoded ep _ fun p => ?_
      rcases receivedAes_cases ep key p with ⟨q, aesKey, -, -, -, -, heq⟩ | ⟨e, heq⟩
      · rw [heq]
        intro n h
        exact Or.inl h
      · rw [heq]
        exact learns_err ep e
    · exact learns_err ep _
  | recvEhlo theirPeerId aesKey =>
    refine learns_decoded ep body fun p => ?_
    rcases receivedEhlo_cases theirPeerId aesKey p with ⟨q, -, heq⟩ | ⟨e, heq⟩
    · rw [heq]
      intro n h
      exact Or.inl h
    · rw [heq]
      exact learns_err ep e
  | _ =>
    intro n h
    exact Or.inl h

theorem learns_advance {pool : ConnectionPool} {stage' : Stage} {l : JoinLabel Seed}
    (h : JoinState.advance ep pool stage l = some stage') : Stage.Learns ep stage stage' := by
  have hsent : Stage.Learns ep stage stage.sent := by
    intro n hn
    refine Or.inl ?_
    cases stage <;> exact hn
  have hfailed : ∀ e, Stage.Learns ep stage (stage.failed e) := by
    intro e n hn
    cases stage with
    | ok theirPeerId addr aesKey => exact Or.inl hn
    | _ => cases hn
  have hchecked : ∀ contains, Stage.Learns ep stage (stage.checked contains) := by
    intro contains n hn
    cases stage with
    | checkPool theirPublicKey theirNonce =>
      cases contains with
      | true => cases hn
      | false => exact Or.inl hn
    | _ => exact Or.inl hn
  cases l with
  | write c =>
    rw [JoinState.advance] at h
    split at h
    · cases h
      exact hsent
    · cases h
      exact hfailed _
    · cases h
  | read c body =>
    rw [JoinState.advance] at h
    split at h
    · split at h
      · cases h
        exact learns_received ep body
      · cases h
        exact hfailed _
    · cases h
  | fail c e =>
    rw [JoinState.advance] at h
    split at h
    · cases h
      exact hfailed _
    · cases h
      exact hfailed _
    · cases h
  | check c =>
    rw [JoinState.advance] at h
    split at h
    · cases h
      exact hchecked _
    · cases h
  | _ => cases h

end Stages

/-! ### What the rest of the node does to the pool -/

theorem pool_disconnectSection {codec : Codec Bytes} {s s' : NodeState} {n m : PeerID}
    {quit : QuitPacket} {writes : Bool} {stage : Disconnecting} {next : Option Disconnecting}
    (h : s.disconnectSection codec n quit writes stage = some (s', next))
    (hm : s.pool.connections[m]? = none) :
    s'.pool.ourPeerId = s.pool.ourPeerId ∧ s'.pool.connections[m]? = none := by
  rcases disconnectSection_cases h with ⟨-, -, ⟨rfl, -⟩ | ⟨peer, body, -, -, rfl⟩⟩ |
    ⟨-, ⟨-, -, rfl⟩ | ⟨peer, -, -, rfl⟩⟩ | ⟨-, -, rfl⟩
  · exact ⟨rfl, hm⟩
  · exact ⟨rfl, hm⟩
  · exact ⟨rfl, hm⟩
  · refine ⟨rfl, ?_⟩
    rw [getElem?_removePeer]
    split
    · rfl
    · exact hm
  · exact ⟨rfl, hm⟩

theorem pool_pollTask {codec : Codec Bytes} {s s' : NodeState} {m : PeerID} {t : TaskId}
    {writes : Bool} {shuffle : Shuffle} (h : s.pollTask codec t writes shuffle = some s')
    (hm : s.pool.connections[m]? = none) :
    s'.pool.ourPeerId = s.pool.ourPeerId ∧ s'.pool.connections[m]? = none := by
  rcases pollTask_cases h with ⟨n, stream, got, -, hcase⟩ | ⟨n, stream, handler, -, hcase⟩
  · rcases hcase with ⟨b, rest, -, -, rfl⟩ | ⟨-, -, -, rfl⟩ | ⟨-, rfl⟩ | ⟨-, -, -, -, -, rfl⟩ <;>
      exact ⟨rfl, hm⟩
  · rcases hcase with ⟨-, rfl⟩ | ⟨u, handler', hsec, rfl⟩
    · exact ⟨rfl, hm⟩
    · rcases handlerSection_cases hsec with ⟨⟨dht, fired, rfl⟩, -⟩ |
        ⟨response, p, peer, body, -, -, -, -, -, rfl⟩ | ⟨stage, q, next, -, -, hdisc⟩
      · exact ⟨rfl, hm⟩
      · exact ⟨rfl, hm⟩
      · have hpool := pool_disconnectSection hdisc hm
        exact hpool

/-- **Only an `insert` puts a peer into the pool.** -/
theorem pool_step {codec : Codec Bytes} {s s' : NodeState} {m : PeerID} {l : NodeLabel}
    (h : s.step codec l = some s') (hl : l.isInsert = false)
    (hm : s.pool.connections[m]? = none) :
    s'.pool.ourPeerId = s.pool.ourPeerId ∧ s'.pool.connections[m]? = none := by
  cases NodeState.step_cases h with
  | insert => cases hl
  | outside => exact ⟨rfl, hm⟩
  | call => exact ⟨rfl, hm⟩
  | disconnect _ hsec =>
    have hpool := pool_disconnectSection hsec hm
    exact hpool
  | disconnectEnds => exact ⟨rfl, hm⟩
  | poll hpoll => exact pool_pollTask hpoll hm
  | cancel => exact ⟨rfl, hm⟩
  | send => exact ⟨rfl, hm⟩

theorem pool_insertPeer {s : NodeState} {n m : PeerID} (codec : Codec Bytes) (addr : String)
    (hne : n ≠ m) (hm : s.pool.connections[m]? = none) :
    (s.insertPeer codec n addr).pool.ourPeerId = s.pool.ourPeerId ∧
      (s.insertPeer codec n addr).pool.connections[m]? = none := by
  rw [NodeState.insertPeer]
  split
  · split <;> exact ⟨rfl, hm⟩
  · refine ⟨rfl, ?_⟩
    rw [ConnectionPool.getElem?_insert, if_neg hne]
    exact hm

theorem pool_insertPeer_self {s : NodeState} {n : PeerID} (codec : Codec Bytes) (addr : String)
    (hn : s.pool.connections[n]? = none) :
    (s.insertPeer codec n addr).pool.connections[n]? = some ⟨addr, s.next, none, s.next⟩ := by
  rw [insertPeer_of_none codec addr hn]
  exact (ConnectionPool.getElem?_insert _ _ _ _).trans (if_pos rfl)

/-! ### The node is no peer of its own -/

/-- The node is at neither end of a connection with itself, nor about to be. -/
structure Stranger (identity : Identity crates) (s : JoinState Seed) : Prop where
  ourPeerId : s.node.pool.ourPeerId = identity.peerId
  pool : s.node.pool.connections[identity.peerId]? = none
  calls : ∀ c expectedPeerId draws stage, s.calls c = .running expectedPeerId draws stage →
    stage.theirPeerId? crates ≠ some identity.peerId

namespace Stranger

variable {identity : Identity crates} {s s' : JoinState Seed}

theorem init (identity : Identity crates) : Stranger identity (JoinState.init identity) where
  ourPeerId := rfl
  pool := by simp [JoinState.init, NodeState.init, ConnectionPool.new]
  calls c _ _ stage h := by cases h

theorem setCall (inv : Stranger identity s) (c : ℕ) {call : JoinCall Seed}
    (h : ∀ expectedPeerId draws stage, call = .running expectedPeerId draws stage →
      stage.theirPeerId? crates ≠ some identity.peerId) : Stranger identity (s.setCall c call) := by
  refine ⟨inv.ourPeerId, inv.pool, fun c' expectedPeerId draws stage hcall => ?_⟩
  rcases update_eq_cases hcall with ⟨-, heq⟩ | ⟨-, heq⟩
  · exact h _ _ _ heq
  · exact inv.calls c' _ _ _ heq

theorem setNode (inv : Stranger identity s) {node : NodeState}
    (h : node.pool.ourPeerId = s.node.pool.ourPeerId ∧
      node.pool.connections[identity.peerId]? = none) : Stranger identity (s.setNode node) :=
  ⟨h.1.trans inv.ourPeerId, h.2, inv.calls⟩

theorem step (inv : Stranger identity s) {l : JoinLabel Seed} (h : s.step identity l = some s') :
    Stranger identity s' := by
  cases JoinState.step_cases h with
  | start =>
    refine inv.setCall _ fun _ _ stage heq => ?_
    cases heq
    simp [Stage.theirPeerId?]
  | advance hcall hstage =>
    refine inv.setCall _ fun _ _ stage heq hself => ?_
    cases heq
    rcases learns_advance _ hstage _ hself with hold | hne
    · exact inv.calls _ _ _ _ hcall hold
    · exact hne rfl
  | insert hcall =>
    refine (inv.setNode (pool_insertPeer _ _ (fun heq => ?_) inv.pool)).setCall _ ?_
    · exact inv.calls _ _ _ _ hcall (congrArg some heq)
    · intro _ _ _ heq
      cases heq
  | ends hcall =>
    refine inv.setCall _ fun _ _ _ heq => ?_
    rcases hcall with rfl | rfl <;> cases heq
  | node hl hnode => exact inv.setNode (pool_step hnode hl inv.pool)

/-- **In every run** the node is a stranger to itself. -/
theorem exec {labels : List (JoinLabel Seed)}
    (hrun : Transition.exec (JoinState.step identity) (.init identity) labels = some s) :
    Stranger identity s :=
  invariant_of_exec (fun _ _ _ inv h => inv.step h) hrun (.init identity)

end Stranger

/-! ### A handshake that ends well -/

section Course

variable {ends : Ends crates} {k : Side} {s : JoinState Seed} {c : ℕ}

theorem exists_step_course (course : Course ends) {i : ℕ} (hi : i ≤ 8)
    (hcall : s.calls c = .running (ends k).expectedPeerId (ends k).draws (courseStage ends k i))
    (habsent : s.node.pool.contains (ends k.other).identity.peerId = false) :
    ∃ l, s.step (ends k).identity l = some (s.setCall c
      (.running (ends k).expectedPeerId (ends k).draws (courseStage ends k (i + 1)))) := by
  have hkind : i = 4 ∨ IsSend i ∨ IsRecv i := by
    unfold IsSend IsRecv
    omega
  rcases hkind with rfl | hsend | hrecv
  · refine ⟨.check c, ?_⟩
    have hawaits : (courseStage ends k 4).awaits
        ⟨(ends k).identity, (ends k).expectedPeerId, (ends k).draws⟩ =
          .contains (ends k.other).identity.peerId := courseStage_awaits_contains ends k
    simp only [JoinState.step, JoinState.handshakeRaw, hcall, JoinState.advance, hawaits, habsent,
      courseStage_checked]
  · obtain ⟨body, -, hwrite⟩ := course.writes k i hsend
    refine ⟨.write c, ?_⟩
    have hawaits : (courseStage ends k i).awaits
        ⟨(ends k).identity, (ends k).expectedPeerId, (ends k).draws⟩ = .write (.ok body) := hwrite
    simp only [JoinState.step, JoinState.handshakeRaw, hcall, JoinState.advance, hawaits,
      courseStage_sent hsend]
  · obtain ⟨body, hbody, hread⟩ := course.reads k i hrecv
    refine ⟨.read c body, ?_⟩
    have hawaits : (courseStage ends k i).awaits
        ⟨(ends k).identity, (ends k).expectedPeerId, (ends k).draws⟩ = .frame :=
      courseStage_awaits_frame hrecv
    have hread' : (courseStage ends k i).received
        ⟨(ends k).identity, (ends k).expectedPeerId, (ends k).draws⟩ body =
          courseStage ends k (i + 1) := hread
    have hshort := course.short k.other body (List.mem_of_getElem? hbody)
    simp only [JoinState.step, JoinState.handshakeRaw, hcall, JoinState.advance, hawaits, hread',
      if_pos hshort]

theorem exists_exec_course (course : Course ends) : ∀ (m i : ℕ) (s : JoinState Seed), i + m = 9 →
    s.calls c = .running (ends k).expectedPeerId (ends k).draws (courseStage ends k i) →
    s.node.pool.contains (ends k.other).identity.peerId = false →
    ∃ ls, exec (JoinState.step (ends k).identity) s ls = some (s.setCall c
      (.running (ends k).expectedPeerId (ends k).draws (agreed ends k))) := by
  intro m
  induction m with
  | zero =>
    intro i s hi hcall _
    obtain rfl : i = 9 := hi
    refine ⟨[], congrArg some ?_⟩
    have hself : s.setCall c (.running (ends k).expectedPeerId (ends k).draws (agreed ends k)) = s := by
      rw [JoinState.setCall]
      have hcall' : s.calls c =
          .running (ends k).expectedPeerId (ends k).draws (agreed ends k) := hcall
      rw [← hcall', Function.update_eq_self]
    exact hself.symm
  | succ m ih =>
    intro i s hi hcall habsent
    obtain ⟨l, hl⟩ := exists_step_course course (by omega) hcall habsent
    obtain ⟨ls, hls⟩ := ih (i + 1)
      (s.setCall c (.running (ends k).expectedPeerId (ends k).draws (courseStage ends k (i + 1))))
      (by omega) (Function.update_self _ _ _) habsent
    refine ⟨l :: ls, exec_cons_eq_some.mpr ⟨_, hl, ?_⟩⟩
    rw [hls]
    simp only [JoinState.setCall, Function.update_idem]

/-- **A node that another honest node dials gets it into its pool.** -/
theorem exists_exec_joined (course : Course ends) (hcall : s.calls c = .notCalled)
    (habsent : s.node.pool.connections[(ends k.other).identity.peerId]? = none) :
    ∃ ls, exec (JoinState.step (ends k).identity) s ls = some
      ((s.setNode (s.node.insertPeer crates.toCodec (ends k.other).identity.peerId
        (ends k.other).identity.addr)).setCall c .returned) := by
  have hcontains : s.node.pool.contains (ends k.other).identity.peerId = false := by
    rw [ConnectionPool.contains_eq_isSome, habsent]
    rfl
  let s₁ := s.setCall c (.running (ends k).expectedPeerId (ends k).draws .sendVersion)
  have hstart : s.step (ends k).identity (.start c (ends k).expectedPeerId (ends k).draws) =
      some s₁ := by
    simp only [JoinState.step, hcall, s₁]
  obtain ⟨ls, hls⟩ := exists_exec_course course 9 0 s₁ rfl (Function.update_self _ _ _) hcontains
  let s₂ := s₁.setCall c (.running (ends k).expectedPeerId (ends k).draws (agreed ends k))
  have hfinish : s₂.step (ends k).identity (.finish c) = some
      ((s.setNode (s.node.insertPeer crates.toCodec (ends k.other).identity.peerId
        (ends k.other).identity.addr)).setCall c .returned) := by
    have hcall₂ : s₂.calls c =
        .running (ends k).expectedPeerId (ends k).draws (agreed ends k) := Function.update_self _ _ _
    simp only [JoinState.step, hcall₂, agreed]
    simp only [s₂, s₁, JoinState.setCall, JoinState.setNode, Function.update_idem]
  refine ⟨.start c (ends k).expectedPeerId (ends k).draws :: (ls ++ [.finish c]), ?_⟩
  refine exec_cons_eq_some.mpr ⟨s₁, hstart, ?_⟩
  rw [exec_append_of hls, exec_singleton, hfinish]

end Course

end Tewta
