import Tewta.Node.System

/-!
# Calls of `disconnect`

`disconnect` writes a Quit, takes the lock of the pool again to remove the peer, and fires
`on_disconnect`.  Timeouts, lookups and read tasks that handle a Quit call it, any number at a
time.  A call can be lost at a suspension: its future is dropped, or the read task it runs in
has been aborted, be it by the call itself.  There is none between the removal and the lock of
the listeners, unless somebody else holds that.
-/

namespace Tewta

open Transition

/-- What becomes of the two writes of `send_packet_unchecked`. -/
inductive QuitWrite
  | written
  | failsAtLength
  | failsAtBody
  deriving DecidableEq

inductive HangupStage
  /-- before `send_packet_unchecked` has its lock -/
  | quitting
  /-- before the lock of the pool is taken again -/
  | removing
  /-- the peer is removed, and `event` is called -/
  | announcing
  /-- suspended on the lock of the listeners -/
  | waiting
  /-- with the lock of the listeners -/
  | firing
  | returned
  | panicked
  | dropped
  deriving DecidableEq

/-- A call of `disconnect`, in the read task `task` if that is where it runs.  `quitOn` is the
connection that it has found for its Quit, and `took` the one that it has removed. -/
structure HangupCall where
  peerId : PeerID
  quit : QuitPacket
  task : Option TaskId
  stage : HangupStage
  quitOn : Option PeerInfo
  took : Option PeerInfo

/-- Who has the lock of the listeners of `on_disconnect`. -/
inductive ListenersLock
  | free
  | call (c : ℕ)
  | listen

/-- A node and its calls of `disconnect`, by number.  `removed` and `fired` are the connections
that were removed and those whose event was fired, and `lost` are those that were removed by
a call that was lost before. -/
structure HangupState where
  pool : ConnectionPool
  aborted : TaskId → Bool
  calls : ℕ → Option HangupCall
  lock : ListenersLock
  removed : List (PeerID × PeerInfo)
  fired : List (PeerID × PeerInfo)
  lost : List (PeerID × PeerInfo)
  next : ℕ

inductive HangupLabel
  /-- a handshake inserts a connection -/
  | insert (n : PeerID) (addr : String)
  /-- `disconnect` is called -/
  | call (c : ℕ) (n : PeerID) (quit : QuitPacket) (task : Option TaskId)
  /-- `send_packet_unchecked` has the lock of the pool -/
  | quit (c : ℕ) (write : QuitWrite)
  /-- the lock of the pool is taken again -/
  | remove (c : ℕ)
  /-- `event` asks for the lock of the listeners -/
  | lock (c : ℕ)
  /-- the event is sent, and the lock let go -/
  | fire (c : ℕ)
  /-- a call is lost at a suspension -/
  | drop (c : ℕ)
  /-- `listen` has the lock of the listeners -/
  | listen
  /-- and lets it go -/
  | listened

/-- Is a call at a suspension? -/
def HangupStage.isSuspended : HangupStage → Bool
  | .quitting => true
  | .removing => true
  | .waiting => true
  | _ => false

/-- Has a call removed a peer that it is to announce? -/
def HangupStage.isPending : HangupStage → Bool
  | .announcing => true
  | .waiting => true
  | .firing => true
  | _ => false

/-- Has a call ended, by return or by panic? -/
def HangupStage.isEnded : HangupStage → Bool
  | .returned => true
  | .panicked => true
  | _ => false

namespace HangupState

def init (ourPeerId : PeerID) : HangupState where
  pool := ConnectionPool.new ourPeerId
  aborted _ := false
  calls _ := none
  lock := .free
  removed := []
  fired := []
  lost := []
  next := 0

def setCall (s : HangupState) (c : ℕ) (call : HangupCall) : HangupState :=
  { s with calls := Function.update s.calls c (some call) }

theorem calls_setCall_self (s : HangupState) (c : ℕ) (call : HangupCall) :
    (s.setCall c call).calls c = some call := Function.update_self _ _ _

/-- The read task in which a call runs was aborted. -/
def isAborted (s : HangupState) (call : HangupCall) : Bool :=
  match call.task with
  | some t => s.aborted t
  | none => false

/-- The first section: `send_packet_unchecked`. -/
def sendQuit (codec : Codec Bytes) (s : HangupState) (c : ℕ) (call : HangupCall)
    (write : QuitWrite) : HangupState :=
  match codec.rawBytes (.quit call.quit) with
  | .error _ => s.setCall c { call with stage := .removing }
  | .ok _ =>
    match s.pool.connections[call.peerId]? with
    | none => s.setCall c { call with stage := .removing }
    | some peer =>
      match write with
      | .written => s.setCall c { call with stage := .removing, quitOn := some peer }
      | .failsAtLength => s.setCall c { call with stage := .panicked, quitOn := some peer }
      | .failsAtBody => s.setCall c { call with stage := .panicked, quitOn := some peer }

/-- The second section, with the lock of the pool. -/
def removeEntry (s : HangupState) (c : ℕ) (call : HangupCall) : HangupState :=
  match s.pool.connections[call.peerId]? with
  | some peer =>
    { s.setCall c { call with stage := .announcing, took := some peer } with
      pool := s.pool.remove call.peerId
      aborted := Function.update s.aborted peer.readStreamTask true
      removed := s.removed ++ [(call.peerId, peer)] }
  | none => s.setCall c { call with stage := .returned }

/-- The connection that a call has removed, with its peer. -/
def taken (call : HangupCall) : List (PeerID × PeerInfo) :=
  match call.took with
  | some peer => [(call.peerId, peer)]
  | none => []

def step (codec : Codec Bytes) (s : HangupState) : HangupLabel → Option HangupState
  | .insert n addr =>
    match s.pool.connections[n]? with
    | some _ => none
    | none =>
      some { s with
        pool := s.pool.insert n
          { addr, writeStream := s.next, pingNanos := none, readStreamTask := s.next }
        next := s.next + 1 }
  | .call c n quit task =>
    match s.calls c with
    | none => some (s.setCall c ⟨n, quit, task, .quitting, none, none⟩)
    | some _ => none
  | .quit c write =>
    match s.calls c with
    | some call => if call.stage = .quitting then some (s.sendQuit codec c call write) else none
    | none => none
  | .remove c =>
    match s.calls c with
    | some call => if call.stage = .removing then some (s.removeEntry c call) else none
    | none => none
  | .lock c =>
    match s.calls c with
    | some call =>
      match call.stage, s.lock with
      | .announcing, .free =>
        some { s.setCall c { call with stage := .firing } with lock := .call c }
      | .announcing, _ => some (s.setCall c { call with stage := .waiting })
      | .waiting, .free =>
        if s.isAborted call then none
        else some { s.setCall c { call with stage := .firing } with lock := .call c }
      | _, _ => none
    | none => none
  | .fire c =>
    match s.calls c with
    | some call =>
      if call.stage = .firing then
        some { s.setCall c { call with stage := .returned } with
          lock := .free, fired := s.fired ++ taken call }
      else none
    | none => none
  | .drop c =>
    match s.calls c with
    | some call =>
      if call.stage.isSuspended && (call.task.isNone || s.isAborted call) then
        some { s.setCall c { call with stage := .dropped } with
          lost := if call.stage = .waiting then s.lost ++ taken call else s.lost }
      else none
    | none => none
  | .listen =>
    match s.lock with
    | .free => some { s with lock := .listen }
    | _ => none
  | .listened =>
    match s.lock with
    | .listen => some { s with lock := .free }
    | _ => none

/-- What one step can be. -/
inductive Steps (codec : Codec Bytes) (s : HangupState) : HangupLabel → HangupState → Prop
  | insert {n addr} : s.pool.connections[n]? = none → Steps codec s (.insert n addr) { s with
      pool := s.pool.insert n
        { addr, writeStream := s.next, pingNanos := none, readStreamTask := s.next }
      next := s.next + 1 }
  | call {c n quit task} : s.calls c = none → Steps codec s (.call c n quit task)
      (s.setCall c ⟨n, quit, task, .quitting, none, none⟩)
  | noQuit {c call write} : s.calls c = some call → call.stage = .quitting →
      (∀ body, codec.rawBytes (.quit call.quit) = .ok body →
        s.pool.connections[call.peerId]? = none) →
      Steps codec s (.quit c write) (s.setCall c { call with stage := .removing })
  | quits {c call peer} : s.calls c = some call → call.stage = .quitting →
      s.pool.connections[call.peerId]? = some peer → Steps codec s (.quit c .written)
        (s.setCall c { call with stage := .removing, quitOn := some peer })
  | panics {c call peer write body} : s.calls c = some call → call.stage = .quitting →
      codec.rawBytes (.quit call.quit) = .ok body →
      s.pool.connections[call.peerId]? = some peer → write ≠ .written →
      Steps codec s (.quit c write)
        (s.setCall c { call with stage := .panicked, quitOn := some peer })
  | removes {c call peer} : s.calls c = some call → call.stage = .removing →
      s.pool.connections[call.peerId]? = some peer → Steps codec s (.remove c)
        { s.setCall c { call with stage := .announcing, took := some peer } with
          pool := s.pool.remove call.peerId
          aborted := Function.update s.aborted peer.readStreamTask true
          removed := s.removed ++ [(call.peerId, peer)] }
  | absent {c call} : s.calls c = some call → call.stage = .removing →
      s.pool.connections[call.peerId]? = none →
      Steps codec s (.remove c) (s.setCall c { call with stage := .returned })
  | locks {c call} : s.calls c = some call → call.stage.isPending = true →
      Steps codec s (.lock c) { s.setCall c { call with stage := .firing } with lock := .call c }
  | waits {c call} : s.calls c = some call → call.stage = .announcing →
      Steps codec s (.lock c) (s.setCall c { call with stage := .waiting })
  | fires {c call} : s.calls c = some call → call.stage = .firing →
      Steps codec s (.fire c) { s.setCall c { call with stage := .returned } with
        lock := .free, fired := s.fired ++ taken call }
  | drops {c call} : s.calls c = some call → call.stage.isSuspended = true →
      Steps codec s (.drop c) { s.setCall c { call with stage := .dropped } with
        lost := if call.stage = .waiting then s.lost ++ taken call else s.lost }
  | listen {lock} : Steps codec s .listen { s with lock }
  | listened {lock} : Steps codec s .listened { s with lock }

variable {codec : Codec Bytes} {s s' : HangupState}

theorem steps_sendQuit {c : ℕ} {call : HangupCall} (hcall : s.calls c = some call)
    (hstage : call.stage = .quitting) (write : QuitWrite) :
    Steps codec s (.quit c write) (s.sendQuit codec c call write) := by
  rw [sendQuit]
  split
  · rename_i e he
    exact .noQuit hcall hstage fun body hbody => by cases he.symm.trans hbody
  · rename_i body hbody
    split
    · rename_i hnone
      exact .noQuit hcall hstage fun _ _ => hnone
    · rename_i peer hpeer
      cases write with
      | written => exact .quits hcall hstage hpeer
      | failsAtLength => exact .panics hcall hstage hbody hpeer (by rintro ⟨⟩)
      | failsAtBody => exact .panics hcall hstage hbody hpeer (by rintro ⟨⟩)

theorem steps_removeEntry {c : ℕ} {call : HangupCall} (hcall : s.calls c = some call)
    (hstage : call.stage = .removing) : Steps codec s (.remove c) (s.removeEntry c call) := by
  rw [removeEntry]
  split
  · rename_i peer hpeer
    exact .removes hcall hstage hpeer
  · rename_i hnone
    exact .absent hcall hstage hnone

theorem steps_lock {c : ℕ} (h : s.step codec (.lock c) = some s') :
    Steps codec s (.lock c) s' := by
  rw [step] at h
  split at h
  · rename_i call hcall
    split at h
    · rename_i hstage _
      cases h
      exact .locks hcall (by rw [hstage]; rfl)
    · rename_i hstage _
      cases h
      exact .waits hcall hstage
    · rename_i hstage _
      split at h
      · cases h
      · cases h
        exact .locks hcall (by rw [hstage]; rfl)
    · cases h
  · cases h

theorem step_cases {l : HangupLabel} (h : s.step codec l = some s') : Steps codec s l s' := by
  cases l with
  | insert n addr =>
    rw [step] at h
    split at h
    · cases h
    · rename_i hnone
      cases h
      exact .insert hnone
  | call c n quit task =>
    rw [step] at h
    split at h
    · rename_i hnone
      cases h
      exact .call hnone
    · cases h
  | quit c write =>
    rw [step] at h
    split at h
    · rename_i hcall
      split at h
      · rename_i hstage
        cases h
        exact steps_sendQuit hcall hstage write
      · cases h
    · cases h
  | remove c =>
    rw [step] at h
    split at h
    · rename_i hcall
      split at h
      · rename_i hstage
        cases h
        exact steps_removeEntry hcall hstage
      · cases h
    · cases h
  | lock c => exact steps_lock h
  | fire c =>
    rw [step] at h
    split at h
    · rename_i hcall
      split at h
      · rename_i hstage
        cases h
        exact .fires hcall hstage
      · cases h
    · cases h
  | drop c =>
    rw [step] at h
    split at h
    · rename_i hcall
      split at h
      · rename_i hdrop
        cases h
        exact .drops hcall (Bool.and_eq_true _ _ ▸ hdrop).1
      · cases h
    · cases h
  | listen =>
    rw [step] at h
    split at h
    · cases h
      exact .listen
    · cases h
  | listened =>
    rw [step] at h
    split at h
    · cases h
      exact .listened
    · cases h

end HangupState

/-! ### What is known of connections and calls -/

/-- Streams have one place, removed connections are out of the pool and their read tasks
aborted, and a call has to do with connections that are in the pool or were removed. -/
structure HangupInv (s : HangupState) : Prop where
  pool : ∀ (n : PeerID) (peer : PeerInfo), s.pool.connections[n]? = some peer →
    peer.writeStream < s.next ∧ ∀ (m : PeerID) (other : PeerInfo),
      s.pool.connections[m]? = some other → other.writeStream = peer.writeStream → m = n
  removed : ∀ e ∈ s.removed, s.aborted e.2.readStreamTask = true ∧ e.2.writeStream < s.next ∧
    ∀ (m : PeerID) (peer : PeerInfo), s.pool.connections[m]? = some peer →
      peer.writeStream ≠ e.2.writeStream
  fired : ∀ e ∈ s.fired, e ∈ s.removed
  quitOn : ∀ c call peer, s.calls c = some call → call.quitOn = some peer →
    s.pool.connections[call.peerId]? = some peer ∨ (call.peerId, peer) ∈ s.removed
  took : ∀ c call peer, s.calls c = some call → call.took = some peer →
    (call.peerId, peer) ∈ s.removed
  early : ∀ c call, s.calls c = some call → call.stage = .quitting ∨ call.stage = .removing →
    call.took = none

namespace HangupInv

open HangupState

variable {codec : Codec Bytes} {s s' : HangupState}

theorem init (ourPeerId : PeerID) : HangupInv (HangupState.init ourPeerId) := by
  have hpool : ∀ n : PeerID, (HangupState.init ourPeerId).pool.connections[n]? = none := by
    simp [HangupState.init, ConnectionPool.new]
  refine ⟨fun n peer hn => ?_, fun e he => ?_, fun e he => ?_, fun c call peer hcall => ?_,
    fun c call peer hcall => ?_, fun c call hcall => ?_⟩
  · cases (hpool n).symm.trans hn
  · cases he
  · cases he
  · cases hcall
  · cases hcall
  · cases hcall

theorem setCall (inv : HangupInv s) (c : ℕ) {call : HangupCall}
    (hquitOn : ∀ peer, call.quitOn = some peer →
      s.pool.connections[call.peerId]? = some peer ∨ (call.peerId, peer) ∈ s.removed)
    (htook : ∀ peer, call.took = some peer → (call.peerId, peer) ∈ s.removed)
    (hearly : call.stage = .quitting ∨ call.stage = .removing → call.took = none) :
    HangupInv (s.setCall c call) := by
  refine ⟨inv.pool, inv.removed, inv.fired, fun c' call' peer hcall' hpeer => ?_,
    fun c' call' peer hcall' hpeer => ?_, fun c' call' hcall' hstage => ?_⟩
  · rcases update_eq_cases hcall' with ⟨-, heq⟩ | ⟨-, hcall'⟩
    · cases heq
      exact hquitOn peer hpeer
    · exact inv.quitOn c' call' peer hcall' hpeer
  · rcases update_eq_cases hcall' with ⟨-, heq⟩ | ⟨-, hcall'⟩
    · cases heq
      exact htook peer hpeer
    · exact inv.took c' call' peer hcall' hpeer
  · rcases update_eq_cases hcall' with ⟨-, heq⟩ | ⟨-, hcall'⟩
    · cases heq
      exact hearly hstage
    · exact inv.early c' call' hcall' hstage

theorem setStage (inv : HangupInv s) {c : ℕ} {call : HangupCall} (hcall : s.calls c = some call)
    (stage : HangupStage) (hstage : stage = .quitting ∨ stage = .removing → call.took = none) :
    HangupInv (s.setCall c { call with stage }) :=
  inv.setCall c (fun peer => inv.quitOn c call peer hcall) (fun peer => inv.took c call peer hcall)
    hstage

theorem insert (inv : HangupInv s) {n : PeerID} {addr : String}
    (hnone : s.pool.connections[n]? = none) : HangupInv { s with
      pool := s.pool.insert n
        { addr, writeStream := s.next, pingNanos := none, readStreamTask := s.next }
      next := s.next + 1 } := by
  have hget : ∀ (m : PeerID) (peer : PeerInfo), (s.pool.insert n
      { addr, writeStream := s.next, pingNanos := none, readStreamTask := s.next }).connections[m]?
        = some peer → (n = m ∧ peer.writeStream = s.next) ∨
          (n ≠ m ∧ s.pool.connections[m]? = some peer) := by
    intro m peer hm
    rw [ConnectionPool.getElem?_insert] at hm
    split at hm
    · rename_i heq
      cases hm
      exact Or.inl ⟨heq, rfl⟩
    · rename_i hne
      exact Or.inr ⟨hne, hm⟩
  refine ⟨fun m peer hm => ?_, fun e he => ?_, inv.fired, fun c call peer hcall hpeer => ?_,
    inv.took, inv.early⟩
  · rcases hget m peer hm with ⟨rfl, hstream⟩ | ⟨-, hold⟩
    · refine ⟨by rw [hstream]; exact Nat.lt_succ_self _, fun m' other hother heq => ?_⟩
      rcases hget m' other hother with ⟨rfl, -⟩ | ⟨-, hold'⟩
      · rfl
      · exact absurd (heq.trans hstream) (inv.pool m' other hold').1.ne
    · refine ⟨Nat.lt_succ_of_lt (inv.pool m peer hold).1, fun m' other hother heq => ?_⟩
      rcases hget m' other hother with ⟨rfl, hstream'⟩ | ⟨-, hold'⟩
      · exact absurd (heq.symm.trans hstream') (inv.pool m peer hold).1.ne
      · exact (inv.pool m peer hold).2 m' other hold' heq
  · obtain ⟨haborted, hlt, habsent⟩ := inv.removed e he
    refine ⟨haborted, Nat.lt_succ_of_lt hlt, fun m peer hm => ?_⟩
    rcases hget m peer hm with ⟨-, hstream⟩ | ⟨-, hold⟩
    · exact fun heq => absurd (heq.symm.trans hstream) hlt.ne
    · exact habsent m peer hold
  · rcases inv.quitOn c call peer hcall hpeer with hold | hremoved
    · refine Or.inl ?_
      rw [ConnectionPool.getElem?_insert, if_neg, hold]
      rintro rfl
      cases hnone.symm.trans hold
    · exact Or.inr hremoved

theorem removes (inv : HangupInv s) {c : ℕ} {call : HangupCall} {peer : PeerInfo}
    (hcall : s.calls c = some call) (hpeer : s.pool.connections[call.peerId]? = some peer) :
    HangupInv { s.setCall c { call with stage := .announcing, took := some peer } with
      pool := s.pool.remove call.peerId
      aborted := Function.update s.aborted peer.readStreamTask true
      removed := s.removed ++ [(call.peerId, peer)] } := by
  have hget : ∀ (m : PeerID) (other : PeerInfo),
      (s.pool.remove call.peerId).connections[m]? = some other →
      call.peerId ≠ m ∧ s.pool.connections[m]? = some other := by
    intro m other hm
    rw [ConnectionPool.getElem?_remove] at hm
    split at hm
    · cases hm
    · rename_i hne
      exact ⟨hne, hm⟩
  refine ⟨fun m other hm => ?_, fun e he => ?_, fun e he => ?_, fun c' call' peer' hcall' hp => ?_,
    fun c' call' peer' hcall' hp => ?_, fun c' call' hcall' hstage => ?_⟩
  · obtain ⟨-, hold⟩ := hget m other hm
    refine ⟨(inv.pool m other hold).1, fun m' other' hm' heq => ?_⟩
    exact (inv.pool m other hold).2 m' other' (hget m' other' hm').2 heq
  · rcases List.mem_append.mp he with he | he
    · obtain ⟨haborted, hlt, habsent⟩ := inv.removed e he
      refine ⟨?_, hlt, fun m other hm => habsent m other (hget m other hm).2⟩
      show Function.update s.aborted _ true e.2.readStreamTask = true
      rw [Function.update_apply]
      split
      · rfl
      · exact haborted
    · obtain rfl := List.mem_singleton.mp he
      refine ⟨Function.update_self _ _ _, (inv.pool _ _ hpeer).1, fun m other hm heq => ?_⟩
      obtain ⟨hne, hold⟩ := hget m other hm
      exact hne ((inv.pool _ _ hpeer).2 m other hold heq).symm
  · exact List.mem_append_left _ (inv.fired e he)
  · have hmoved : ∀ n other, s.pool.connections[n]? = some other →
        (s.pool.remove call.peerId).connections[n]? = some other ∨
          (n, other) ∈ s.removed ++ [(call.peerId, peer)] := by
      intro n other hn
      rw [ConnectionPool.getElem?_remove]
      split
      · rename_i heq
        subst heq
        cases hpeer.symm.trans hn
        exact Or.inr (List.mem_append_right _ (List.mem_singleton_self _))
      · exact Or.inl hn
    have hold : s.pool.connections[call'.peerId]? = some peer' ∨
        (call'.peerId, peer') ∈ s.removed := by
      rcases update_eq_cases hcall' with ⟨-, heq⟩ | ⟨-, hcall'⟩
      · cases heq
        exact inv.quitOn c call peer' hcall hp
      · exact inv.quitOn c' call' peer' hcall' hp
    rcases hold with hold | hremoved
    · exact hmoved _ _ hold
    · exact Or.inr (List.mem_append_left _ hremoved)
  · rcases update_eq_cases hcall' with ⟨-, heq⟩ | ⟨-, hcall'⟩
    · cases heq
      cases hp
      exact List.mem_append_right _ (List.mem_singleton_self _)
    · exact List.mem_append_left _ (inv.took c' call' peer' hcall' hp)
  · rcases update_eq_cases hcall' with ⟨-, heq⟩ | ⟨-, hcall'⟩
    · cases heq
      rcases hstage with h | h <;> cases h
    · exact inv.early c' call' hcall' hstage

theorem mem_taken {call : HangupCall} {e : PeerID × PeerInfo} :
    e ∈ taken call ↔ e.1 = call.peerId ∧ call.took = some e.2 := by
  rw [taken]
  cases call.took with
  | none => simp
  | some peer =>
    rw [List.mem_singleton, Prod.ext_iff, Option.some.injEq]
    exact and_congr_right fun _ => eq_comm

theorem step (inv : HangupInv s) {l : HangupLabel} (h : s.step codec l = some s') :
    HangupInv s' := by
  cases step_cases h with
  | insert hnone => exact inv.insert hnone
  | call _ => exact inv.setCall _ (by rintro _ ⟨⟩) (by rintro _ ⟨⟩) fun _ => rfl
  | noQuit hcall hstage _ => exact inv.setStage hcall _ fun _ => inv.early _ _ hcall (Or.inl hstage)
  | quits hcall hstage hpeer =>
    have hearly := inv.early _ _ hcall (Or.inl hstage)
    have htook := fun peer => inv.took _ _ peer hcall
    refine inv.setCall _ (fun peer' heq => ?_) htook fun _ => hearly
    cases heq
    exact Or.inl hpeer
  | panics hcall hstage _ hpeer _ =>
    have hearly := inv.early _ _ hcall (Or.inl hstage)
    have htook := fun peer => inv.took _ _ peer hcall
    refine inv.setCall _ (fun peer' heq => ?_) htook fun _ => hearly
    cases heq
    exact Or.inl hpeer
  | removes hcall _ hpeer => exact inv.removes hcall hpeer
  | absent hcall _ _ => exact inv.setStage hcall _ (by rintro (h | h) <;> cases h)
  | locks hcall _ =>
    have hnext := inv.setStage hcall .firing (by rintro (h | h) <;> cases h)
    exact ⟨hnext.pool, hnext.removed, hnext.fired, hnext.quitOn, hnext.took, hnext.early⟩
  | waits hcall _ => exact inv.setStage hcall _ (by rintro (h | h) <;> cases h)
  | @fires c call hcall _ =>
    have hnext := inv.setStage hcall .returned (by rintro (h | h) <;> cases h)
    refine ⟨hnext.pool, hnext.removed, fun e he => ?_, hnext.quitOn, hnext.took, hnext.early⟩
    rcases List.mem_append.mp he with he | he
    · exact inv.fired e he
    · obtain ⟨hn, htook⟩ := mem_taken.mp he
      have hmem := inv.took c call e.2 hcall htook
      rw [← hn] at hmem
      exact hmem
  | drops hcall _ =>
    have hnext := inv.setStage hcall .dropped (by rintro (h | h) <;> cases h)
    exact ⟨hnext.pool, hnext.removed, hnext.fired, hnext.quitOn, hnext.took, hnext.early⟩
  | listen => exact ⟨inv.pool, inv.removed, inv.fired, inv.quitOn, inv.took, inv.early⟩
  | listened => exact ⟨inv.pool, inv.removed, inv.fired, inv.quitOn, inv.took, inv.early⟩

end HangupInv

/-! ### Whether a call has disconnected -/

namespace HangupState

variable {codec : Codec Bytes} {s s' : HangupState}

/-- A connection is gone: it is not in the pool, its read task is aborted, and its event was
fired. -/
structure Gone (s : HangupState) (n : PeerID) (peer : PeerInfo) : Prop where
  absent : ∀ (m : PeerID) (other : PeerInfo), s.pool.connections[m]? = some other →
    other.writeStream ≠ peer.writeStream
  aborted : s.aborted peer.readStreamTask = true
  fired : (n, peer) ∈ s.fired

/-- The connections that a call has acted on: that on which it was to write its Quit, and that
which it has removed. -/
def ActedOn (call : HangupCall) (peer : PeerInfo) : Prop :=
  call.quitOn = some peer ∨ call.took = some peer

/-- Every call of `disconnect` that has ended has disconnected. -/
def AllDisconnected (s : HangupState) : Prop :=
  ∀ c call peer, s.calls c = some call → call.stage.isEnded = true → ActedOn call peer →
    s.Gone call.peerId peer

/-- The steps that let a call of `disconnect` do its work: the Quit that it writes is written,
and if another call has removed the connection that its Quit was written on, that other call has
fired the event by the time this one returns. -/
def Undisturbed (codec : Codec Bytes) (s : HangupState) : HangupLabel → Prop
  | .quit c write => ∀ call body peer, s.calls c = some call →
    codec.rawBytes (.quit call.quit) = .ok body →
    s.pool.connections[call.peerId]? = some peer → write = .written
  | .remove c => ∀ call peer, s.calls c = some call → call.quitOn = some peer →
    s.pool.connections[call.peerId]? = none → (call.peerId, peer) ∈ s.fired
  | .fire c => ∀ call peer, s.calls c = some call → call.quitOn = some peer →
    call.took ≠ some peer → (call.peerId, peer) ∈ s.fired
  | _ => True

theorem gone_of_fired (inv : HangupInv s) {n : PeerID} {peer : PeerInfo}
    (h : (n, peer) ∈ s.fired) : s.Gone n peer := by
  obtain ⟨haborted, -, habsent⟩ := inv.removed _ (inv.fired _ h)
  exact ⟨habsent, haborted, h⟩

/-- Every call that has ended has its connections announced. -/
def AllAnnounced (s : HangupState) : Prop :=
  ∀ c call peer, s.calls c = some call → call.stage.isEnded = true → ActedOn call peer →
    (call.peerId, peer) ∈ s.fired

theorem AllAnnounced.setCall (h : s.AllAnnounced) (c : ℕ) {call : HangupCall}
    (hcall : call.stage.isEnded = true → ∀ peer, ActedOn call peer →
      (call.peerId, peer) ∈ s.fired) : (s.setCall c call).AllAnnounced := by
  intro c' call' peer hcall' hended hacted
  rcases update_eq_cases hcall' with ⟨-, heq⟩ | ⟨-, hcall'⟩
  · cases heq
    exact hcall hended peer hacted
  · exact h c' call' peer hcall' hended hacted

/-- **An undisturbed step** keeps the calls that have ended in order. -/
theorem AllAnnounced.step (inv : HangupInv s) (hall : s.AllAnnounced) {l : HangupLabel}
    (hok : s.Undisturbed codec l) (h : s.step codec l = some s') : s'.AllAnnounced := by
  cases step_cases h with
  | insert _ => exact hall
  | call _ => exact hall.setCall _ (by rintro ⟨⟩)
  | noQuit _ _ _ => exact hall.setCall _ (by rintro ⟨⟩)
  | quits _ _ _ => exact hall.setCall _ (by rintro ⟨⟩)
  | panics hcall _ hbody hpeer hwrite => exact absurd (hok _ _ _ hcall hbody hpeer) hwrite
  | removes _ _ _ => exact hall.setCall _ (by rintro ⟨⟩)
  | @absent c call hcall hstage hnone =>
    refine hall.setCall _ fun _ peer hacted => ?_
    rcases hacted with hquitOn | htook
    · exact hok call peer hcall hquitOn hnone
    · cases (inv.early _ _ hcall (Or.inr hstage)).symm.trans htook
  | locks _ _ => exact hall.setCall _ (by rintro ⟨⟩)
  | waits _ _ => exact hall.setCall _ (by rintro ⟨⟩)
  | @fires c call hcall _ =>
    intro c' call' peer hcall' hended hacted
    rcases update_eq_cases hcall' with ⟨-, heq⟩ | ⟨-, hcall'⟩
    · cases heq
      by_cases htook : call.took = some peer
      · exact List.mem_append_right _ (HangupInv.mem_taken.mpr ⟨rfl, htook⟩)
      · exact List.mem_append_left _ (hok call peer hcall (hacted.resolve_right htook) htook)
    · exact List.mem_append_left _ (hall c' call' peer hcall' hended hacted)
  | drops _ _ => exact hall.setCall _ (by rintro ⟨⟩)
  | listen => exact hall
  | listened => exact hall

/-- **A disturbed step** leaves a call that has ended and has not disconnected. -/
theorem not_allDisconnected_of_step {l : HangupLabel} (hbad : ¬ s.Undisturbed codec l)
    (h : s.step codec l = some s') : ¬ s'.AllDisconnected := by
  intro hall
  apply hbad
  cases step_cases h with
  | insert _ => trivial
  | call _ => trivial
  | noQuit hcall _ hno =>
    intro call body peer hcall' hbody hpeer
    cases hcall.symm.trans hcall'
    cases (hno body hbody).symm.trans hpeer
  | quits _ _ _ => exact fun _ _ _ _ _ _ => rfl
  | @panics c call peer write body hcall _ _ hpeer _ =>
    -- the connection that the Quit was to be written on is still in the pool
    have hgone := hall c _ peer (Function.update_self _ _ _) rfl (Or.inl rfl)
    exact absurd rfl (hgone.absent _ peer hpeer)
  | removes hcall _ hpeer =>
    intro call peer hcall' _ hnone
    cases hcall.symm.trans hcall'
    cases hpeer.symm.trans hnone
  | @absent c call hcall _ _ =>
    intro call' peer hcall' hquitOn _
    cases hcall.symm.trans hcall'
    exact (hall c _ peer (Function.update_self _ _ _) rfl (Or.inl hquitOn)).fired
  | locks _ _ => trivial
  | waits _ _ => trivial
  | @fires c call hcall _ =>
    intro call' peer hcall' hquitOn htook
    cases hcall.symm.trans hcall'
    have hgone := hall c _ peer (Function.update_self _ _ _) rfl (Or.inl hquitOn)
    rcases List.mem_append.mp hgone.fired with hfired | htaken
    · exact hfired
    · exact absurd (HangupInv.mem_taken.mp htaken).2 htook
  | drops _ _ => trivial
  | listen => trivial
  | listened => trivial

/-- **Every call of `disconnect` that ends has disconnected, exactly in the runs of
undisturbed steps.** -/
theorem disconnect_disconnects_iff (codec : Codec Bytes) {ourPeerId : PeerID}
    {labels : List HangupLabel} (h : exec (step codec) (init ourPeerId) labels = some s) :
    Always (step codec) AllDisconnected (init ourPeerId) labels ↔
      Meets (step codec) (Undisturbed codec) (init ourPeerId) labels := by
  refine always_iff_meets (I := fun s => HangupInv s ∧ s.AllAnnounced) ?_ ?_ ?_ h ?_
  · exact fun s l t inv hok hstep => ⟨inv.1.step hstep, inv.2.step inv.1 hok hstep⟩
  · exact fun s inv c call peer hcall hended hacted =>
      gone_of_fired inv.1 (inv.2 c call peer hcall hended hacted)
  · exact fun s l t _ hbad hstep => not_allDisconnected_of_step hbad hstep
  · exact ⟨.init ourPeerId, fun c call peer hcall => by cases hcall⟩

/-! ### A broken stream -/

/-- A peer is connected, its stream breaks, and it is disconnected for that. -/
def brokenStream (n : PeerID) (quit : QuitPacket) : List HangupLabel :=
  [.insert n "local-1", .call 0 n quit none, .quit 0 .failsAtLength]

theorem exec_brokenStream (ourPeerId n : PeerID) {quit : QuitPacket} {body : Bytes}
    (hbody : codec.rawBytes (.quit quit) = .ok body) : ∃ s,
      exec (step codec) (init ourPeerId) (brokenStream n quit) = some s ∧
        s.calls 0 = some ⟨n, quit, none, .panicked, some ⟨"local-1", 0, none, 0⟩, none⟩ ∧
        s.fired = [] := by
  have hnew : (init ourPeerId).pool.connections[n]? = none := by
    simp [init, ConnectionPool.new]
  have hget : ((ConnectionPool.new ourPeerId).insert n
      ⟨"local-1", 0, none, 0⟩).connections[n]? = some ⟨"local-1", 0, none, 0⟩ :=
    (ConnectionPool.getElem?_insert _ _ _ _).trans (if_pos rfl)
  let s₁ : HangupState := { init ourPeerId with
    pool := (ConnectionPool.new ourPeerId).insert n ⟨"local-1", 0, none, 0⟩
    next := 1 }
  have hinsert : (init ourPeerId).step codec (.insert n "local-1") = some s₁ := by
    simp only [step, hnew]
    rfl
  have hcall : s₁.step codec (.call 0 n quit none) =
      some (s₁.setCall 0 ⟨n, quit, none, .quitting, none, none⟩) := rfl
  have hquit : (s₁.setCall 0 ⟨n, quit, none, .quitting, none, none⟩).step codec
      (.quit 0 .failsAtLength) = some (s₁.setCall 0
        ⟨n, quit, none, .panicked, some ⟨"local-1", 0, none, 0⟩, none⟩) := by
    simp only [step, setCall, Function.update_self, if_true, sendQuit, hbody, s₁, hget,
      Function.update_idem]
  refine ⟨_, exec_cons_eq_some.mpr ⟨_, hinsert, exec_cons_eq_some.mpr ⟨_, hcall,
    (exec_singleton _ _).trans hquit⟩⟩, calls_setCall_self _ _ _, rfl⟩

/-- The Quit of a peer that has not answered a ping. -/
def pingTimeout : QuitPacket :=
  { reasonCode := "Timeout", message := none, reportFault := false }

theorem not_allDisconnected_brokenStream (ourPeerId n : PeerID) : ∃ s,
    exec (step (listCodec [.quit pingTimeout])) (init ourPeerId) (brokenStream n pingTimeout) =
      some s ∧ ¬ s.AllDisconnected := by
  have hbody : (listCodec [.quit pingTimeout]).rawBytes (.quit pingTimeout) = .ok [0] := rfl
  obtain ⟨s, hrun, hcall, hfired⟩ := exec_brokenStream ourPeerId n hbody
  refine ⟨s, hrun, fun hall => ?_⟩
  have hgone := (hall 0 _ ⟨"local-1", 0, none, 0⟩ hcall rfl (Or.inl rfl)).fired
  rw [hfired] at hgone
  cases hgone

/-- **A peer whose stream is broken is not disconnected**: the write of the Quit fails, and its
`unwrap` comes before the removal. -/
theorem broken_peer_stays_connected : ∃ s,
    exec (step (listCodec [.quit pingTimeout])) (init ⟨realSha256 []⟩)
      (brokenStream ⟨realSha256 [1]⟩ pingTimeout) = some s ∧ ¬ s.AllDisconnected :=
  not_allDisconnected_brokenStream _ _

/-- The write was fatal in that run. -/
theorem disconnect_disconnects_iff_brokenStream :
    ¬ Meets (step (listCodec [.quit pingTimeout])) (Undisturbed (listCodec [.quit pingTimeout]))
      (init ⟨realSha256 []⟩) (brokenStream ⟨realSha256 [1]⟩ pingTimeout) := by
  obtain ⟨s, hrun, hbad⟩ := not_allDisconnected_brokenStream ⟨realSha256 []⟩ ⟨realSha256 [1]⟩
  rw [← disconnect_disconnects_iff _ hrun]
  exact fun hall => hbad (hall.last hrun)

end HangupState

end Tewta
