import Tewta.Lib.Duplex
import Tewta.Node.OnPacket
import Tewta.Node.System

/-!
# Two nodes that wait for each other

The read loop of a connection calls `on_packet` before it reads on, and `on_packet` writes the
reply under the lock of the pool.  Two connected nodes are followed here, with streams of finite
buffers, any number of tasks that send packets, and the read loops of their connection.

`stuck_iff` says where nothing can move any more: where nothing is left to do, and where each
node holds its lock for a write that waits for the read loop of the other, while that is in
`on_packet` and waits for its own lock or for the same.  `Deadlocked.exec` says that the second
is for good, and `deadlock_is_reachable` is a run to it.

The two stay connected, so `send_packet_unchecked` finds its peer.
-/

namespace Tewta

open Transition Duplex

/-! ### The model -/

/-- What the read loop of a node does. -/
inductive ReadLoop
  | reading
  /-- in `on_packet`, before a lock or an event -/
  | handling (handler : Handler)
  /-- in `on_packet`, writing the reply to a request -/
  | replying (p : Packet)
  /-- it has panicked, or has been sent a Quit -/
  | ended

/-- A task that calls `send_packet`. -/
inductive SendTask
  | waiting (body : Bytes)
  | writing
  | returned

/-- Who has the lock of a pool. -/
inductive LockHolder
  | loop
  | task (t : ℕ)

/-- One of the two nodes.  Who has the lock is writing, with so many bytes left. -/
structure Party where
  pool : ConnectionPool
  dht : DhtStore
  lock : Option (LockHolder × ℕ)
  loop : ReadLoop
  tasks : ℕ → Option SendTask

/-- A direction of the connection: the bodies of the frames that were begun and not read to the
end, the bytes read of the first, and the bytes in the buffers. -/
structure Wire where
  frames : List Bytes
  consumed : ℕ
  buffered : ℕ

/-- The nodes, and what is on the way from each to the other. -/
structure PairState where
  party : Side → Party
  wire : Side → Wire

inductive PairLabel
  /-- a task calls `send_packet` -/
  | send (t : ℕ) (p : Packet)
  /-- a task gets the lock -/
  | lock (t : ℕ)
  /-- the stream takes some of the bytes it is offered -/
  | write (k : ℕ)
  /-- everything is written, and the lock let go -/
  | unlock
  /-- the read loop takes some of the bytes in the buffers -/
  | read (k : ℕ)
  /-- it has read a frame -/
  | receive
  /-- the first section of `on_packet` -/
  | handle (shuffle : Shuffle)
  /-- `peers_with_addrs`, for a request of values that are not there -/
  | list
  /-- the read loop calls `send_packet` with its reply -/
  | reply
  /-- the event of the packet is fired -/
  | fire

/-- The length of a frame. -/
def frameLength (body : Bytes) : ℕ := 4 + body.length

/-- Does the first section of `on_packet` take the lock of the pool? -/
def Packet.readsPool : Packet → Bool
  | .discoverPeers p => p.mask.length ≤ 32
  | .findPeer _ => true
  | _ => false

/-- The read loop after a section of `on_packet`. -/
def Handler.toLoop : Handler → ReadLoop
  | .finished => .reading
  | .disconnecting _ _ => .ended
  | handler => .handling handler

/-- The places at which `on_packet` can be suspended here. -/
def ReadLoop.isProper : ReadLoop → Bool
  | .handling .finished => false
  | .handling (.disconnecting _ _) => false
  | _ => true

section Step

variable (codec : Codec Bytes)

/-- The read loop once a frame is read. -/
def receivedFrame (body : Bytes) : ReadLoop :=
  if maxPacketSize ≤ body.length then .ended
  else
    match codec.fromRawBytes body with
    | .ok p => .handling (.start p)
    | .error _ => .reading

namespace PairState

variable (capacity : Side → ℕ)

def setParty (s : PairState) (k : Side) (party : Party) : PairState :=
  { s with party := Function.update s.party k party }

def setWire (s : PairState) (k : Side) (wire : Wire) : PairState :=
  { s with wire := Function.update s.wire k wire }

/-- A frame is begun. -/
def begin (s : PairState) (k : Side) (party : Party) (body : Bytes) : PairState :=
  (s.setParty k party).setWire k { s.wire k with frames := (s.wire k).frames ++ [body] }

/-- The holder of the lock has written everything. -/
def unlocked (party : Party) : LockHolder → Option Party
  | .loop =>
    match party.loop with
    | .replying p => some { party with lock := none, loop := .handling (.fire p) }
    | _ => none
  | .task t =>
    some { party with lock := none, tasks := Function.update party.tasks t (some .returned) }

/-- A step of the read loop in `on_packet`, or of its reading. -/
def loopStep (s : PairState) (k : Side) (l : PairLabel) : Option PairState :=
  let party := s.party k
  let wire := s.wire k.other
  match l, party.loop with
  | .read j, .reading =>
    match wire.frames with
    | body :: _ =>
      if 0 < j ∧ j ≤ wire.buffered ∧ wire.consumed + j ≤ frameLength body then
        some (s.setWire k.other
          { wire with consumed := wire.consumed + j, buffered := wire.buffered - j })
      else none
    | [] => none
  | .receive, .reading =>
    match wire.frames with
    | body :: rest =>
      if wire.consumed = frameLength body then
        some ((s.setParty k { party with loop := receivedFrame codec body }).setWire k.other
          { wire with frames := rest, consumed := 0 })
      else none
    | [] => none
  | .handle shuffle, .handling (.start p) =>
    if p.readsPool && party.lock.isSome then none
    else
      match onPacket party.pool party.dht shuffle p with
      | some (handler, dht) => some (s.setParty k { party with loop := handler.toLoop, dht })
      | none => some (s.setParty k { party with loop := .ended })
  | .list, .handling (.listPeers p) =>
    match party.lock with
    | none =>
      let response := notFoundResponse party.pool p
      some (s.setParty k { party with loop := .handling (.reply response (.findDhtValue p)) })
    | some _ => none
  | .reply, .handling (.reply response p) =>
    match codec.rawBytes response with
    | .error _ => some (s.setParty k { party with loop := .handling (.fire p) })
    | .ok body =>
      match party.lock with
      | none =>
        some (s.begin k
          { party with lock := some (.loop, frameLength body), loop := .replying p } body)
      | some _ => none
  | .fire, .handling (.fire _) => some (s.setParty k { party with loop := .reading })
  | _, _ => none

def step (s : PairState) : Side × PairLabel → Option PairState
  | (k, .send t p) =>
    match (s.party k).tasks t with
    | none =>
      let task :=
        match codec.rawBytes p with
        | .ok body => SendTask.waiting body
        | .error _ => SendTask.returned
      some (s.setParty k
        { s.party k with tasks := Function.update (s.party k).tasks t (some task) })
    | some _ => none
  | (k, .lock t) =>
    match (s.party k).lock, (s.party k).tasks t with
    | none, some (.waiting body) =>
      some (s.begin k
        { s.party k with
          lock := some (.task t, frameLength body)
          tasks := Function.update (s.party k).tasks t (some .writing) } body)
    | _, _ => none
  | (k, .write j) =>
    match (s.party k).lock with
    | some (holder, left) =>
      if 0 < j ∧ j ≤ left ∧ (s.wire k).buffered + j ≤ capacity k then
        some ((s.setParty k { s.party k with lock := some (holder, left - j) }).setWire k
          { s.wire k with buffered := (s.wire k).buffered + j })
      else none
    | none => none
  | (k, .unlock) =>
    match (s.party k).lock with
    | some (holder, 0) => (unlocked (s.party k) holder).map (s.setParty k)
    | _ => none
  | (k, l) => s.loopStep codec k l

end PairState

end Step

/-! ### What one step can be -/

theorem Handler.toLoop_ne_replying (handler : Handler) (p : Packet) :
    handler.toLoop ≠ .replying p := by
  cases handler <;> rintro ⟨⟩

theorem Handler.isProper_toLoop (handler : Handler) : handler.toLoop.isProper = true := by
  cases handler <;> rfl

theorem isProper_receivedFrame (codec : Codec Bytes) (body : Bytes) :
    (receivedFrame codec body).isProper = true := by
  rw [receivedFrame]
  split
  · rfl
  · split <;> rfl

theorem receivedFrame_ne_replying (codec : Codec Bytes) (body : Bytes) (p : Packet) :
    receivedFrame codec body ≠ .replying p := by
  rw [receivedFrame]
  split
  · rintro ⟨⟩
  · split
    · rintro ⟨⟩
    · rintro ⟨⟩

namespace PairState

variable {codec : Codec Bytes} {capacity : Side → ℕ} {s s' : PairState}

inductive Steps (codec : Codec Bytes) (capacity : Side → ℕ) (s : PairState) (k : Side) :
    PairLabel → PairState → Prop
  | send {t p task} : (s.party k).tasks t = none → Steps codec capacity s k (.send t p)
      (s.setParty k { s.party k with tasks := Function.update (s.party k).tasks t task })
  | lock {t body} : (s.party k).lock = none → (s.party k).tasks t = some (.waiting body) →
      Steps codec capacity s k (.lock t) (s.begin k { s.party k with
        lock := some (.task t, frameLength body)
        tasks := Function.update (s.party k).tasks t (some .writing) } body)
  | write {holder left j} : (s.party k).lock = some (holder, left) → 0 < j → j ≤ left →
      (s.wire k).buffered + j ≤ capacity k → Steps codec capacity s k (.write j)
        ((s.setParty k { s.party k with lock := some (holder, left - j) }).setWire k
          { s.wire k with buffered := (s.wire k).buffered + j })
  | unlockLoop {p} : (s.party k).lock = some (.loop, 0) → (s.party k).loop = .replying p →
      Steps codec capacity s k .unlock
        (s.setParty k { s.party k with lock := none, loop := .handling (.fire p) })
  | unlockTask {t} : (s.party k).lock = some (.task t, 0) → Steps codec capacity s k .unlock
      (s.setParty k { s.party k with
        lock := none, tasks := Function.update (s.party k).tasks t (some .returned) })
  | read {j body rest} : (s.party k).loop = .reading → (s.wire k.other).frames = body :: rest →
      0 < j → j ≤ (s.wire k.other).buffered →
      (s.wire k.other).consumed + j ≤ frameLength body → Steps codec capacity s k (.read j)
        (s.setWire k.other { s.wire k.other with
          consumed := (s.wire k.other).consumed + j
          buffered := (s.wire k.other).buffered - j })
  | receive {body rest} : (s.party k).loop = .reading →
      (s.wire k.other).frames = body :: rest → (s.wire k.other).consumed = frameLength body →
      Steps codec capacity s k .receive
        ((s.setParty k { s.party k with loop := receivedFrame codec body }).setWire k.other
          { s.wire k.other with frames := rest, consumed := 0 })
  | handle {shuffle p loop dht} : (s.party k).loop = .handling (.start p) →
      (p.readsPool = true → (s.party k).lock = none) → (∀ q, loop ≠ .replying q) →
      loop.isProper = true →
      Steps codec capacity s k (.handle shuffle) (s.setParty k { s.party k with loop, dht })
  | list {p} : (s.party k).loop = .handling (.listPeers p) → (s.party k).lock = none →
      Steps codec capacity s k .list (s.setParty k { s.party k with
        loop := .handling (.reply (notFoundResponse (s.party k).pool p) (.findDhtValue p)) })
  | replyFails {response p e} : (s.party k).loop = .handling (.reply response p) →
      codec.rawBytes response = .error e → Steps codec capacity s k .reply
        (s.setParty k { s.party k with loop := .handling (.fire p) })
  | replies {response p body} : (s.party k).loop = .handling (.reply response p) →
      codec.rawBytes response = .ok body → (s.party k).lock = none →
      Steps codec capacity s k .reply (s.begin k { s.party k with
        lock := some (.loop, frameLength body), loop := .replying p } body)
  | fire {p} : (s.party k).loop = .handling (.fire p) →
      Steps codec capacity s k .fire (s.setParty k { s.party k with loop := .reading })

theorem loopStep_cases {k : Side} {l : PairLabel} (h : s.loopStep codec k l = some s') :
    Steps codec capacity s k l s' := by
  simp only [loopStep] at h
  split at h
  · rename_i hloop
    split at h
    · rename_i hframes
      split at h
      · rename_i hj
        cases h
        exact .read hloop hframes hj.1 hj.2.1 hj.2.2
      · cases h
    · cases h
  · rename_i hloop
    split at h
    · rename_i hframes
      split at h
      · rename_i hconsumed
        cases h
        exact .receive hloop hframes hconsumed
      · cases h
    · cases h
  · rename_i shuffle p hloop
    split at h
    · cases h
    · rename_i hfree
      have hlock : p.readsPool = true → (s.party k).lock = none := by
        intro hreads
        rw [hreads, Bool.true_and, Bool.not_eq_true, Option.isSome_eq_false_iff] at hfree
        exact Option.isNone_iff_eq_none.mp hfree
      split at h
      · rename_i handler dht _
        cases h
        exact .handle hloop hlock handler.toLoop_ne_replying handler.isProper_toLoop
      · cases h
        exact .handle hloop hlock (by rintro q ⟨⟩) rfl
  · rename_i hloop
    split at h
    · rename_i hlock
      cases h
      exact .list hloop hlock
    · cases h
  · rename_i hloop
    split at h
    · rename_i hbody
      cases h
      exact .replyFails hloop hbody
    · rename_i hbody
      split at h
      · rename_i hlock
        cases h
        exact .replies hloop hbody hlock
      · cases h
  · rename_i hloop
    cases h
    exact .fire hloop
  · cases h

theorem step_cases {k : Side} {l : PairLabel} (h : s.step codec capacity (k, l) = some s') :
    Steps codec capacity s k l s' := by
  cases l with
  | send t p =>
    rw [step] at h
    split at h
    · rename_i hnone
      cases h
      exact .send hnone
    · cases h
  | lock t =>
    rw [step] at h
    split at h
    · rename_i hlock htask
      cases h
      exact .lock hlock htask
    · cases h
  | write j =>
    rw [step] at h
    split at h
    · rename_i hlock
      split at h
      · rename_i hj
        cases h
        exact .write hlock hj.1 hj.2.1 hj.2.2
      · cases h
    · cases h
  | unlock =>
    rw [step] at h
    split at h
    · rename_i holder hlock
      obtain ⟨party, hparty, rfl⟩ := Option.map_eq_some_iff.mp h
      cases holder with
      | loop =>
        simp only [unlocked] at hparty
        split at hparty
        · rename_i hloop
          cases hparty
          exact .unlockLoop hlock hloop
        · cases hparty
      | task t =>
        cases hparty
        exact .unlockTask hlock
    · cases h
  | read j => exact loopStep_cases h
  | receive => exact loopStep_cases h
  | handle shuffle => exact loopStep_cases h
  | list => exact loopStep_cases h
  | reply => exact loopStep_cases h
  | fire => exact loopStep_cases h

/-! ### The invariant -/

/-- The bytes that the holder of the lock has left. -/
def left (party : Party) : ℕ :=
  match party.lock with
  | some (_, n) => n
  | none => 0

theorem left_of_free {party : Party} (h : party.lock = none) : left party = 0 := by
  rw [left, h]

/-- The read loop is writing exactly when it has the lock. -/
structure PartyInv (party : Party) : Prop where
  loop : ∀ n, party.lock = some (.loop, n) → ∃ p, party.loop = .replying p
  replying : ∀ p, party.loop = .replying p → ∃ n, party.lock = some (.loop, n)
  proper : party.loop.isProper = true

/-- Every byte of a frame is read, in the buffers, or left to write. -/
structure WireInv (party : Party) (wire : Wire) : Prop where
  bytes : wire.consumed + wire.buffered + left party = (wire.frames.map frameLength).sum
  head : ∀ body rest, wire.frames = body :: rest → wire.consumed ≤ frameLength body

def PairInv (s : PairState) : Prop :=
  ∀ k, PartyInv (s.party k) ∧ WireInv (s.party k) (s.wire k)

@[simp] theorem party_setParty_self (s : PairState) (k : Side) (party : Party) :
    (s.setParty k party).party k = party := Function.update_self _ _ _

theorem party_setParty_of_ne (s : PairState) {k k' : Side} (h : k' ≠ k) (party : Party) :
    (s.setParty k party).party k' = s.party k' := Function.update_of_ne h _ _

@[simp] theorem wire_setParty (s : PairState) (k : Side) (party : Party) :
    (s.setParty k party).wire = s.wire := rfl

@[simp] theorem wire_setWire_self (s : PairState) (k : Side) (wire : Wire) :
    (s.setWire k wire).wire k = wire := Function.update_self _ _ _

theorem wire_setWire_of_ne (s : PairState) {k k' : Side} (h : k' ≠ k) (wire : Wire) :
    (s.setWire k wire).wire k' = s.wire k' := Function.update_of_ne h _ _

@[simp] theorem party_setWire (s : PairState) (k : Side) (wire : Wire) :
    (s.setWire k wire).party = s.party := rfl

theorem PairInv.setWire (inv : s.PairInv) {k : Side} {wire : Wire}
    (hwire : WireInv (s.party k) wire) : (s.setWire k wire).PairInv := by
  intro k'
  rw [party_setWire]
  by_cases hk : k' = k
  · subst hk
    rw [wire_setWire_self]
    exact ⟨(inv k').1, hwire⟩
  · rw [wire_setWire_of_ne _ hk]
    exact inv k'

theorem PairInv.setBoth (inv : s.PairInv) {k : Side} {party : Party} {wire : Wire}
    (hparty : PartyInv party) (hwire : WireInv party wire) :
    ((s.setParty k party).setWire k wire).PairInv := by
  intro k'
  rw [party_setWire]
  by_cases hk : k' = k
  · subst hk
    rw [wire_setWire_self, party_setParty_self]
    exact ⟨hparty, hwire⟩
  · rw [wire_setWire_of_ne _ hk, party_setParty_of_ne _ hk, wire_setParty]
    exact inv k'

theorem PairInv.setParty (inv : s.PairInv) {k : Side} {party : Party}
    (hparty : PartyInv party) (hleft : left party = left (s.party k)) :
    (s.setParty k party).PairInv := by
  intro k'
  rw [wire_setParty]
  by_cases hk : k' = k
  · subst hk
    rw [party_setParty_self]
    obtain ⟨hbytes, hhead⟩ := (inv k').2
    exact ⟨hparty, hleft ▸ hbytes, hhead⟩
  · rw [party_setParty_of_ne _ hk]
    exact inv k'

theorem PairInv.begin (inv : s.PairInv) {k : Side} {party : Party} {body : Bytes}
    (hparty : PartyInv party) (hfree : (s.party k).lock = none)
    (hleft : left party = frameLength body) : (s.begin k party body).PairInv := by
  obtain ⟨hbytes, hhead⟩ := (inv k).2
  refine inv.setBoth hparty ⟨?_, fun first rest hframes => ?_⟩
  · rw [left, hfree] at hbytes
    rw [hleft, List.map_append, List.sum_append, ← hbytes]
    simp
  · cases hold : (s.wire k).frames with
    | nil =>
      rw [hold, left_of_free hfree, List.map_nil, List.sum_nil] at hbytes
      show (s.wire k).consumed ≤ _
      omega
    | cons first' rest' =>
      rw [hold] at hframes
      cases hframes
      exact hhead _ _ hold

/-- The loop is somewhere else, and writes neither before nor after. -/
theorem PartyInv.of_loop {party : Party} (inv : PartyInv party)
    (hold : ∀ p, party.loop ≠ .replying p) {loop : ReadLoop} (hnew : ∀ p, loop ≠ .replying p)
    (hproper : loop.isProper = true) (dht : DhtStore) : PartyInv { party with loop, dht } := by
  refine ⟨fun n hlock => ?_, fun p hp => absurd hp (hnew p), hproper⟩
  obtain ⟨p, hp⟩ := inv.loop n hlock
  exact absurd hp (hold p)

theorem PairInv.step (inv : s.PairInv) {k : Side} {l : PairLabel}
    (h : s.step codec capacity (k, l) = some s') : s'.PairInv := by
  have hparty := (inv k).1
  obtain ⟨hbytes, hhead⟩ := (inv k).2
  have hfree : (s.party k).lock = none → ∀ p, (s.party k).loop ≠ .replying p := by
    intro hlock p hp
    obtain ⟨n, hn⟩ := hparty.replying p hp
    cases hlock.symm.trans hn
  cases step_cases h with
  | send _ => exact inv.setParty ⟨hparty.loop, hparty.replying, hparty.proper⟩ rfl
  | lock hlock _ =>
    exact inv.begin ⟨fun n hn => (by cases hn), fun p hp => absurd hp (hfree hlock p),
      hparty.proper⟩ hlock rfl
  | @write holder n j hlock _ hle _ =>
    refine inv.setBoth ⟨fun n' hn => ?_, fun p hp => ?_, hparty.proper⟩ ⟨?_, hhead⟩
    · cases hn
      exact hparty.loop n hlock
    · obtain ⟨n', hn'⟩ := hparty.replying p hp
      cases hlock.symm.trans hn'
      exact ⟨_, rfl⟩
    · rw [left, hlock] at hbytes
      rw [← hbytes]
      show (s.wire k).consumed + ((s.wire k).buffered + j) + (n - j) =
        (s.wire k).consumed + (s.wire k).buffered + n
      omega
  | unlockLoop hlock _ =>
    refine inv.setParty ⟨by rintro n ⟨⟩, by rintro p ⟨⟩, rfl⟩ ?_
    rw [left, left, hlock]
  | @unlockTask t hlock =>
    refine inv.setParty ⟨by rintro n ⟨⟩, fun p hp => ?_, hparty.proper⟩ ?_
    · obtain ⟨n, hn⟩ := hparty.replying p hp
      cases hlock.symm.trans hn
    · rw [left, left, hlock]
  | @read j body rest _ hframes _ hle hspace =>
    obtain ⟨hbytes', -⟩ := (inv k.other).2
    refine inv.setWire ⟨?_, fun body' rest' hframes' => ?_⟩
    · rw [← hbytes']
      show (s.wire k.other).consumed + j + ((s.wire k.other).buffered - j) + _ =
        (s.wire k.other).consumed + (s.wire k.other).buffered + _
      omega
    · cases hframes.symm.trans hframes'
      exact hspace
  | @receive body rest hloop hframes hconsumed =>
    obtain ⟨hbytes', -⟩ := (inv k.other).2
    have hother : (s.setParty k { s.party k with loop := receivedFrame codec body }).PairInv :=
      inv.setParty (hparty.of_loop (by rw [hloop]; rintro p ⟨⟩)
        (receivedFrame_ne_replying codec body) (isProper_receivedFrame codec body) _) rfl
    refine PairInv.setWire hother ⟨?_, fun _ _ _ => Nat.zero_le _⟩
    have hne : k.other ≠ k := Side.other_ne k
    rw [party_setParty_of_ne _ hne]
    rw [hframes, List.map_cons, List.sum_cons, hconsumed] at hbytes'
    show 0 + (s.wire k.other).buffered + left (s.party k.other) = (rest.map frameLength).sum
    omega
  | handle hloop _ hne hproper =>
    exact inv.setParty (hparty.of_loop (by rw [hloop]; rintro p ⟨⟩) hne hproper _) rfl
  | list hloop _ =>
    exact inv.setParty (hparty.of_loop (by rw [hloop]; rintro p ⟨⟩) (by rintro p ⟨⟩) rfl _) rfl
  | replyFails hloop _ =>
    exact inv.setParty (hparty.of_loop (by rw [hloop]; rintro p ⟨⟩) (by rintro p ⟨⟩) rfl _) rfl
  | replies _ _ hlock =>
    exact inv.begin ⟨fun _ _ => ⟨_, rfl⟩, fun _ _ => ⟨_, rfl⟩, rfl⟩ hlock rfl
  | fire hloop =>
    exact inv.setParty (hparty.of_loop (by rw [hloop]; rintro p ⟨⟩) (by rintro p ⟨⟩) rfl _) rfl

/-- Two nodes that are connected, with nothing on the way. -/
def init (pool : Side → ConnectionPool) (dht : Side → DhtStore) : PairState where
  party k := ⟨pool k, dht k, none, .reading, fun _ => none⟩
  wire _ := ⟨[], 0, 0⟩

theorem PairInv.init (pool : Side → ConnectionPool) (dht : Side → DhtStore) :
    (PairState.init pool dht).PairInv :=
  fun _ => ⟨⟨by rintro n ⟨⟩, by rintro p ⟨⟩, rfl⟩, rfl, by rintro body rest ⟨⟩⟩

/-! ### Where nothing can move -/

/-- No step of the nodes is possible: only new calls of `send_packet` are. -/
def Stuck (codec : Codec Bytes) (capacity : Side → ℕ) (s : PairState) : Prop :=
  ∀ k l, (∀ t p, l ≠ .send t p) → s.step codec capacity (k, l) = none

/-- Is the read loop in `on_packet`, where it needs the lock of the pool? -/
def needsLock (codec : Codec Bytes) : ReadLoop → Bool
  | .handling (.start p) => p.readsPool
  | .handling (.listPeers _) => true
  | .handling (.reply response _) =>
    match codec.rawBytes response with
    | .ok _ => true
    | .error _ => false
  | _ => false

/-- A node waits for the other: its lock is held for a write that waits for room in the buffers,
and its read loop is in `on_packet`, waiting for that lock or for its own write. -/
structure Blocked (codec : Codec Bytes) (capacity : Side → ℕ) (s : PairState) (k : Side) :
    Prop where
  holds : ∃ holder n, (s.party k).lock = some (holder, n) ∧ 0 < n
  full : capacity k ≤ (s.wire k).buffered
  loop : needsLock codec (s.party k).loop = true ∨ ∃ p, (s.party k).loop = .replying p

/-- **The two nodes wait for each other.** -/
def Deadlocked (codec : Codec Bytes) (capacity : Side → ℕ) (s : PairState) : Prop :=
  ∀ k, Blocked codec capacity s k

/-- A node has nothing left to do: nobody has its lock or waits for it, its read loop waits for
a frame, and no frame of its is on the way. -/
structure Quiet (s : PairState) (k : Side) : Prop where
  lock : (s.party k).lock = none
  loop : (s.party k).loop = .reading
  tasks : ∀ t body, (s.party k).tasks t ≠ some (.waiting body)
  frames : (s.wire k).frames = []

def Idle (s : PairState) : Prop := ∀ k, Quiet s k

/-- Whose lock is held writes until the buffers are full. -/
theorem Stuck.full (hstuck : s.Stuck codec capacity) (inv : s.PairInv) {k : Side}
    {holder : LockHolder} {n : ℕ} (hlock : (s.party k).lock = some (holder, n)) :
    0 < n ∧ capacity k ≤ (s.wire k).buffered := by
  have hpos : 0 < n := by
    rw [Nat.pos_iff_ne_zero]
    rintro rfl
    have hunlock := hstuck k .unlock (by rintro t p ⟨⟩)
    simp only [step, hlock, Option.map_eq_none_iff] at hunlock
    cases holder with
    | loop =>
      obtain ⟨p, hp⟩ := (inv k).1.loop 0 hlock
      simp only [unlocked, hp] at hunlock
      cases hunlock
    | task t => cases hunlock
  refine ⟨hpos, ?_⟩
  by_contra hroom
  have hwrite := hstuck k (.write 1) (by rintro t p ⟨⟩)
  have hfits : 0 < 1 ∧ 1 ≤ n ∧ (s.wire k).buffered + 1 ≤ capacity k := by omega
  simp only [step, hlock, if_pos hfits] at hwrite
  cases hwrite

/-- A read loop that waits for bytes has read all there are, and if a frame is on the way then
its writer has not finished. -/
theorem Stuck.reading (hstuck : s.Stuck codec capacity) (inv : s.PairInv) {k : Side}
    (hloop : (s.party k).loop = .reading) : (s.wire k.other).buffered = 0 ∧
      ((s.wire k.other).frames = [] ∨ (s.party k.other).lock ≠ none) := by
  obtain ⟨hbytes, hhead⟩ := (inv k.other).2
  cases hframes : (s.wire k.other).frames with
  | nil =>
    rw [hframes, List.map_nil, List.sum_nil] at hbytes
    exact ⟨by omega, Or.inl rfl⟩
  | cons body rest =>
    have hle := hhead body rest hframes
    have hread := hstuck k (.read 1) (by rintro t p ⟨⟩)
    have hreceive := hstuck k .receive (by rintro t p ⟨⟩)
    have hlt : (s.wire k.other).consumed < frameLength body := by
      refine Nat.lt_of_le_of_ne hle fun heq => ?_
      simp only [step, loopStep, hloop, hframes, if_pos heq] at hreceive
      cases hreceive
    have hempty : (s.wire k.other).buffered = 0 := by
      by_contra hne
      have hfits : 0 < 1 ∧ 1 ≤ (s.wire k.other).buffered ∧
          (s.wire k.other).consumed + 1 ≤ frameLength body := by omega
      simp only [step, loopStep, hloop, hframes, if_pos hfits] at hread
      cases hread
    refine ⟨hempty, Or.inr fun hlock => ?_⟩
    rw [hframes, hempty, left_of_free hlock, List.map_cons, List.sum_cons] at hbytes
    omega

/-- A read loop that is in `on_packet` waits for the lock. -/
theorem Stuck.handling (hstuck : s.Stuck codec capacity) (inv : s.PairInv) {k : Side}
    {handler : Handler} (hloop : (s.party k).loop = .handling handler) :
    needsLock codec (.handling handler) = true ∧ (s.party k).lock ≠ none := by
  cases handler with
  | start p =>
    have hhandle := hstuck k (.handle ⟨id, fun _ => .refl _⟩) (by rintro t p ⟨⟩)
    simp only [step, loopStep, hloop] at hhandle
    split at hhandle
    · rename_i hwaits
      rw [Bool.and_eq_true] at hwaits
      exact ⟨hwaits.1, Option.isSome_iff_ne_none.mp hwaits.2⟩
    · split at hhandle <;> cases hhandle
  | listPeers p =>
    have hlist := hstuck k .list (by rintro t p ⟨⟩)
    refine ⟨rfl, fun hlock => ?_⟩
    simp only [step, loopStep, hloop, hlock] at hlist
    cases hlist
  | reply response p =>
    have hreply := hstuck k .reply (by rintro t p ⟨⟩)
    simp only [step, loopStep, hloop] at hreply
    split at hreply
    · cases hreply
    · rename_i body hbody
      refine ⟨by simp only [needsLock, hbody], fun hlock => ?_⟩
      simp only [hlock] at hreply
      cases hreply
  | fire p =>
    have hfire := hstuck k .fire (by rintro t p ⟨⟩)
    simp only [step, loopStep, hloop] at hfire
    cases hfire
  | disconnecting stage p =>
    have hproper := (inv k).1.proper
    rw [hloop] at hproper
    cases hproper
  | finished =>
    have hproper := (inv k).1.proper
    rw [hloop] at hproper
    cases hproper

/-- If one node has its lock held then the read loop of the other is in `on_packet`, and has the
lock of the other held in its turn. -/
theorem Stuck.other_held (hstuck : s.Stuck codec capacity) (inv : s.PairInv)
    (hcapacity : ∀ k, 0 < capacity k) (hrun : ∀ k, (s.party k).loop ≠ .ended) {k : Side}
    (hlock : (s.party k).lock ≠ none) : (s.party k.other).lock ≠ none ∧
      (needsLock codec (s.party k.other).loop = true ∨
        ∃ p, (s.party k.other).loop = .replying p) := by
  obtain ⟨⟨holder, n⟩, hheld⟩ := Option.ne_none_iff_exists'.mp hlock
  obtain ⟨-, hfull⟩ := hstuck.full inv hheld
  cases hloop : (s.party k.other).loop with
  | reading =>
    have hempty := (hstuck.reading inv hloop).1
    rw [Side.other_other] at hempty
    have hpos := hcapacity k
    omega
  | handling handler =>
    obtain ⟨hneeds, hother⟩ := hstuck.handling inv hloop
    exact ⟨hother, Or.inl hneeds⟩
  | replying p =>
    obtain ⟨m, hm⟩ := (inv k.other).1.replying p hloop
    exact ⟨by rw [hm]; exact Option.some_ne_none _, Or.inr ⟨p, rfl⟩⟩
  | ended => exact absurd hloop (hrun k.other)

theorem Stuck.blocked (hstuck : s.Stuck codec capacity) (inv : s.PairInv) {k : Side}
    (hlock : (s.party k).lock ≠ none)
    (hloop : needsLock codec (s.party k).loop = true ∨ ∃ p, (s.party k).loop = .replying p) :
    Blocked codec capacity s k := by
  obtain ⟨⟨holder, n⟩, hheld⟩ := Option.ne_none_iff_exists'.mp hlock
  obtain ⟨hpos, hfull⟩ := hstuck.full inv hheld
  exact ⟨⟨holder, n, hheld, hpos⟩, hfull, hloop⟩

theorem Stuck.quiet (hstuck : s.Stuck codec capacity) (inv : s.PairInv)
    (hrun : ∀ k, (s.party k).loop ≠ .ended) (hfree : ∀ k, (s.party k).lock = none) : s.Idle := by
  have hloop : ∀ k, (s.party k).loop = .reading := by
    intro k
    cases hloop : (s.party k).loop with
    | reading => rfl
    | handling handler => exact absurd (hfree k) (hstuck.handling inv hloop).2
    | replying p =>
      obtain ⟨n, hn⟩ := (inv k).1.replying p hloop
      cases (hfree k).symm.trans hn
    | ended => exact absurd hloop (hrun k)
  intro k
  refine ⟨hfree k, hloop k, fun t body htask => ?_, ?_⟩
  · have hlock := hstuck k (.lock t) (by rintro t' p ⟨⟩)
    simp only [step, hfree k, htask] at hlock
    cases hlock
  · have hframes := (hstuck.reading inv (hloop k.other)).2
    rw [Side.other_other] at hframes
    exact hframes.resolve_right (not_not.mpr (hfree k))

/-- No step is possible while the two wait for each other. -/
theorem Deadlocked.stuck (h : s.Deadlocked codec capacity) : s.Stuck codec capacity := by
  intro k l hl
  obtain ⟨⟨holder, n, hlock, hpos⟩, hfull, hloop⟩ := h k
  by_contra hstep
  obtain ⟨s', hs'⟩ := Option.ne_none_iff_exists'.mp hstep
  cases step_cases hs' with
  | send _ => exact hl _ _ rfl
  | lock hfree _ => cases hlock.symm.trans hfree
  | write hlock' hj _ hroom => omega
  | unlockLoop hlock' _ =>
    cases hlock.symm.trans hlock'
    cases hpos
  | unlockTask hlock' =>
    cases hlock.symm.trans hlock'
    cases hpos
  | read hreading _ _ _ _ =>
    rw [hreading] at hloop
    rcases hloop with h | ⟨p, h⟩ <;> cases h
  | receive hreading _ _ =>
    rw [hreading] at hloop
    rcases hloop with h | ⟨p, h⟩ <;> cases h
  | handle hstart hreads _ _ =>
    rw [hstart] at hloop
    rcases hloop with h | ⟨p, h⟩
    · cases hlock.symm.trans (hreads h)
    · cases h
  | list _ hfree => cases hlock.symm.trans hfree
  | replyFails hreply hbody =>
    rw [hreply] at hloop
    rcases hloop with h | ⟨p, h⟩
    · rw [needsLock, hbody] at h
      cases h
    · cases h
  | replies _ _ hfree => cases hlock.symm.trans hfree
  | fire hfire =>
    rw [hfire] at hloop
    rcases hloop with h | ⟨p, h⟩ <;> cases h

theorem Idle.stuck (h : s.Idle) : s.Stuck codec capacity := by
  intro k l hl
  obtain ⟨hfree, hloop, htasks, -⟩ := h k
  have hframes := (h k.other).frames
  by_contra hstep
  obtain ⟨s', hs'⟩ := Option.ne_none_iff_exists'.mp hstep
  cases step_cases hs' with
  | send _ => exact hl _ _ rfl
  | lock _ htask => exact htasks _ _ htask
  | write hlock _ _ _ => cases hfree.symm.trans hlock
  | unlockLoop hlock _ => cases hfree.symm.trans hlock
  | unlockTask hlock => cases hfree.symm.trans hlock
  | read _ hcons _ _ _ => cases hframes.symm.trans hcons
  | receive _ hcons _ => cases hframes.symm.trans hcons
  | handle hstart _ _ _ => cases hloop.symm.trans hstart
  | list hlist _ => cases hloop.symm.trans hlist
  | replyFails hreply _ => cases hloop.symm.trans hreply
  | replies hreply _ _ => cases hloop.symm.trans hreply
  | fire hfire => cases hloop.symm.trans hfire

/-- Two nodes whose read loops run are stuck where nothing is left to do, and where they wait
for each other. -/
theorem stuck_iff (inv : s.PairInv) (hcapacity : ∀ k, 0 < capacity k)
    (hrun : ∀ k, (s.party k).loop ≠ .ended) :
    s.Stuck codec capacity ↔ s.Deadlocked codec capacity ∨ s.Idle := by
  refine ⟨fun hstuck => ?_, fun h => h.elim Deadlocked.stuck Idle.stuck⟩
  by_cases hfree : ∀ k, (s.party k).lock = none
  · exact Or.inr (hstuck.quiet inv hrun hfree)
  · obtain ⟨k, hlock⟩ := not_forall.mp hfree
    -- one lock held makes the other held, and that the first again
    obtain ⟨hother, hloop⟩ := hstuck.other_held inv hcapacity hrun hlock
    obtain ⟨-, hloop'⟩ := hstuck.other_held inv hcapacity hrun hother
    rw [Side.other_other] at hloop'
    refine Or.inl fun k' => ?_
    by_cases hk : k = k'
    · subst hk
      exact hstuck.blocked inv hlock hloop'
    · rw [Side.eq_other hk]
      exact hstuck.blocked inv hother hloop

theorem Deadlocked.step (h : s.Deadlocked codec capacity) {l : Side × PairLabel}
    (hstep : s.step codec capacity l = some s') : s'.Deadlocked codec capacity := by
  obtain ⟨k, l⟩ := l
  by_cases hl : ∃ t p, l = .send t p
  · obtain ⟨t, p, rfl⟩ := hl
    cases step_cases hstep with
    | send _ =>
      intro k'
      obtain ⟨hholds, hfull, hloop⟩ := h k'
      by_cases hk : k' = k
      · subst hk
        refine ⟨?_, hfull, ?_⟩
        · rw [party_setParty_self]
          exact hholds
        · rw [party_setParty_self]
          exact hloop
      · refine ⟨?_, hfull, ?_⟩
        · rw [party_setParty_of_ne _ hk]
          exact hholds
        · rw [party_setParty_of_ne _ hk]
          exact hloop
  · have hnone := h.stuck k l fun t p heq => hl ⟨t, p, heq⟩
    cases hnone.symm.trans hstep

/-- **Two connected nodes can be stuck in one way only**, besides having nothing left to do: each
holds its lock for a write that waits for the other, and is in `on_packet`, waiting for that
lock or for its own write.  And then they stay so. -/
theorem stuck_iff_deadlocked (codec : Codec Bytes) {capacity : Side → ℕ}
    (hcapacity : ∀ k, 0 < capacity k) {pool : Side → ConnectionPool} {dht : Side → DhtStore}
    {labels : List (Side × PairLabel)}
    (h : exec (PairState.step codec capacity) (init pool dht) labels = some s) :
    ((∀ k, (s.party k).loop ≠ .ended) →
      (s.Stuck codec capacity ↔ s.Deadlocked codec capacity ∨ s.Idle)) ∧
    (s.Deadlocked codec capacity → ∀ labels' s',
      exec (PairState.step codec capacity) s labels' = some s' → s'.Deadlocked codec capacity) := by
  have inv : s.PairInv :=
    invariant_of_exec (fun _ _ _ inv hstep => PairInv.step inv hstep) h (PairInv.init pool dht)
  exact ⟨stuck_iff inv hcapacity, fun hdead labels' s' hrun =>
    invariant_of_exec (fun _ _ _ hdead hstep => Deadlocked.step hdead hstep) hrun hdead⟩

/-! ### Two nodes that ping each other -/

/-- A task sends a packet whose frame fits into the buffers. -/
def sends (k : Side) (t : ℕ) (p : Packet) : List (Side × PairLabel) :=
  [(k, .send t p), (k, .lock t), (k, .write 5), (k, .unlock)]

/-- Both send a Ping, read the other's, send a second and begin a third. -/
def pingEachOther (p : Packet) (shuffle : Shuffle) : List (Side × PairLabel) :=
  sends .left 0 p ++ (sends .right 0 p ++
  ([(.left, .read 5), (.left, .receive), (.right, .read 5), (.right, .receive)] ++
  (sends .left 1 p ++ (sends .right 1 p ++
  [(.left, .send 2 p), (.left, .lock 2), (.right, .send 2 p), (.right, .lock 2),
    (.left, .handle shuffle), (.right, .handle shuffle)]))))

theorem exec_pingEachOther (pool : Side → ConnectionPool) (dht : Side → DhtStore) : ∃ s,
    exec (PairState.step (listCodec [.ping ⟨0⟩, .pong ⟨0⟩]) fun _ => 5) (init pool dht)
      (pingEachOther (.ping ⟨0⟩) ⟨id, fun _ => .refl _⟩) = some s ∧
    ∀ k, (s.party k).lock = some (.task 2, 5) ∧ (s.wire k).buffered = 5 ∧
      (s.party k).loop = .handling (.reply (.pong ⟨0⟩) (.ping ⟨0⟩)) := by
  refine ⟨_, (exec_append_of rfl).trans ((exec_append_of rfl).trans ((exec_append_of rfl).trans
    ((exec_append_of rfl).trans ((exec_append_of rfl).trans rfl)))), fun k => ?_⟩
  cases k with
  | left => exact ⟨rfl, rfl, rfl⟩
  | right => exact ⟨rfl, rfl, rfl⟩

theorem deadlocked_pingEachOther (pool : Side → ConnectionPool) (dht : Side → DhtStore) : ∃ s,
    exec (PairState.step (listCodec [.ping ⟨0⟩, .pong ⟨0⟩]) fun _ => 5) (init pool dht)
      (pingEachOther (.ping ⟨0⟩) ⟨id, fun _ => .refl _⟩) = some s ∧
    s.Deadlocked (listCodec [.ping ⟨0⟩, .pong ⟨0⟩]) (fun _ => 5) ∧
    ∀ k, (s.party k).loop ≠ .ended := by
  obtain ⟨s, hrun, hs⟩ := exec_pingEachOther pool dht
  refine ⟨s, hrun, fun k => ?_, fun k => ?_⟩
  · obtain ⟨hlock, hfull, hloop⟩ := hs k
    refine ⟨⟨_, _, hlock, by decide⟩, hfull.ge, Or.inl ?_⟩
    rw [hloop]
    rfl
  · rw [(hs k).2.2]
    rintro ⟨⟩

/-- Two pools that have each other's node. -/
def connectedPool : Side → ConnectionPool
  | .left => (ConnectionPool.new ⟨realSha256 []⟩).insert ⟨realSha256 [1]⟩ ⟨"local-1", 0, none, 0⟩
  | .right => (ConnectionPool.new ⟨realSha256 [1]⟩).insert ⟨realSha256 []⟩ ⟨"local-0", 0, none, 0⟩

/-- **A deadlock is reachable**: three Pings of each node suffice, where the buffers take one. -/
theorem deadlock_is_reachable : ∃ s,
    exec (PairState.step (listCodec [.ping ⟨0⟩, .pong ⟨0⟩]) fun _ => 5)
      (init connectedPool fun _ => DhtStore.empty)
      (pingEachOther (.ping ⟨0⟩) ⟨id, fun _ => .refl _⟩) = some s ∧
    s.Deadlocked (listCodec [.ping ⟨0⟩, .pong ⟨0⟩]) (fun _ => 5) := by
  obtain ⟨s, hrun, hdead, -⟩ := deadlocked_pingEachOther connectedPool fun _ => DhtStore.empty
  exact ⟨s, hrun, hdead⟩

/-- No step is possible at the end of that run. -/
theorem stuck_iff_deadlocked_pingEachOther : ∃ s,
    exec (PairState.step (listCodec [.ping ⟨0⟩, .pong ⟨0⟩]) fun _ => 5)
      (init connectedPool fun _ => DhtStore.empty)
      (pingEachOther (.ping ⟨0⟩) ⟨id, fun _ => .refl _⟩) = some s ∧
    s.Stuck (listCodec [.ping ⟨0⟩, .pong ⟨0⟩]) (fun _ => 5) := by
  obtain ⟨s, hrun, hdead, hloop⟩ :=
    deadlocked_pingEachOther connectedPool fun _ => DhtStore.empty
  have hcapacity : ∀ _ : Side, 0 < 5 := fun _ => by decide
  exact ⟨s, hrun, ((stuck_iff_deadlocked _ hcapacity hrun).1 hloop).mpr (Or.inl hdead)⟩

end PairState

end Tewta
