import Tewta.Node.System

/-!
# Reading what an honest peer sends

A peer that sends whole frames of packets that `on_packet` knows is read back
packet by packet.  `ReadsPackets` relates a read task to the packets that have
arrived on its stream: the bytes it has read and the bytes that wait are the
frames of the packets it has not handled yet.  It also says how far the task is
with a Quit, if there is one: its entry of the pool is gone exactly when the Quit
has been dealt with.

`ReadsPackets.pollTask` is the step lemma, and `PoolEffect` what the step does to
the rest of the node.  `exists_start` and `exists_cancelled` run a task through a
Quit.
-/

namespace Tewta

open Framing Transition NodeState

variable {codec : Codec Bytes}

/-- The body of a packet that serializes. -/
def encoded (codec : Codec Bytes) (p : Packet) : Bytes :=
  match codec.rawBytes p with
  | .ok body => body
  | .error _ => []

/-- The frame of a packet. -/
def packetFrame (codec : Codec Bytes) (p : Packet) : Bytes := frame (encoded codec p)

/-- A packet that a frame can carry and that `on_packet` knows. -/
structure Carried (codec : Codec Bytes) (p : Packet) : Prop where
  serializes : ∃ body, codec.rawBytes p = .ok body ∧ body.length < maxPacketSize
  not_handshake : p.isHandshake = false

theorem Carried.rawBytes {p : Packet} (h : Carried codec p) :
    codec.rawBytes p = .ok (encoded codec p) ∧ (encoded codec p).length < maxPacketSize := by
  obtain ⟨body, hbody, hlen⟩ := h.serializes
  simp only [encoded, hbody]
  exact ⟨trivial, hlen⟩

/-- One of the packets is a Quit. -/
def HasQuit (packets : List Packet) : Prop := ∃ q, Packet.quit q ∈ packets

theorem HasQuit.append_left {packets : List Packet} (h : HasQuit packets) (more : List Packet) :
    HasQuit (packets ++ more) := by
  obtain ⟨q, hq⟩ := h
  exact ⟨q, List.mem_append_left more hq⟩

@[simp] theorem hasQuit_append_singleton {packets : List Packet} {p : Packet} :
    HasQuit (packets ++ [p]) ↔ HasQuit packets ∨ ∃ q, p = .quit q := by
  simp [HasQuit, exists_or, eq_comm]

theorem not_hasQuit_nil : ¬ HasQuit [] := by simp [HasQuit]

/-- **A read task and the packets that have arrived**: where the task is with the
next of them, and what is left. -/
inductive ReadsPackets (codec : Codec Bytes) (s : NodeState) (n : PeerID) (stream : StreamId)
    (packets : List Packet) : Prop
  | reading {got : Bytes} {handled pending : List Packet}
      (task : s.tasks stream = .reading n stream got)
      (split : packets = handled ++ pending)
      (bytes : got ++ s.inbound stream = pending.flatMap (packetFrame codec))
      (within : ∀ p rest, pending = p :: rest → got <+: packetFrame codec p)
      (quit : HasQuit handled ↔ s.aborted stream = true)
  | handling {handler : Handler} {handled pending : List Packet}
      (task : s.tasks stream = .handling n stream handler)
      (split : packets = handled ++ pending)
      (bytes : s.inbound stream = pending.flatMap (packetFrame codec))
      (start : ∀ p, handler = .start p → p.isHandshake = false)
      (reply : ∀ response p, handler = .reply response p → response.isResponse = true)
      (quitting : handler.isQuitting = true → HasQuit handled ∧ s.aborted stream = false)
      (quit : handler.isQuitting = false → (HasQuit handled ↔ s.aborted stream = true))
  | ended (task : s.tasks stream = .panicked ∨ s.tasks stream = .cancelled)
      (aborted : s.aborted stream = true) (quit : HasQuit packets)

namespace ReadsPackets

variable {s s' : NodeState} {n : PeerID} {stream : StreamId} {packets : List Packet}

/-- The entry of a peer goes only after a Quit from it. -/
theorem hasQuit_of_aborted (h : ReadsPackets codec s n stream packets)
    (ha : s.aborted stream = true) : HasQuit packets := by
  cases h with
  | reading _ split _ _ quit => exact split ▸ (quit.mpr ha).append_left _
  | @handling handler _ _ _ split _ _ _ quitting quit =>
    cases hq : handler.isQuitting with
    | true => exact split ▸ (quitting hq).1.append_left _
    | false => exact split ▸ ((quit hq).mpr ha).append_left _
  | ended _ _ quit => exact quit

theorem congr (h : ReadsPackets codec s n stream packets)
    (htasks : s'.tasks stream = s.tasks stream) (hin : s'.inbound stream = s.inbound stream)
    (habort : s'.aborted stream = s.aborted stream) : ReadsPackets codec s' n stream packets := by
  cases h with
  | reading task split bytes within quit =>
    exact .reading (htasks.trans task) split (by rw [hin]; exact bytes) within
      (by rw [habort]; exact quit)
  | handling task split bytes start reply quitting quit =>
    exact .handling (htasks.trans task) split (hin.trans bytes) start reply
      (by rw [habort]; exact quitting) (by rw [habort]; exact quit)
  | ended task aborted quit => exact .ended (by rw [htasks]; exact task) (habort.trans aborted) quit

theorem arrive (h : ReadsPackets codec s n stream packets) {p : Packet}
    (htasks : s'.tasks stream = s.tasks stream)
    (hin : s'.inbound stream = s.inbound stream ++ packetFrame codec p)
    (habort : s'.aborted stream = s.aborted stream) :
    ReadsPackets codec s' n stream (packets ++ [p]) := by
  cases h with
  | @reading got handled pending task split bytes within quit =>
    have hsplit : packets ++ [p] = handled ++ (pending ++ [p]) := by
      rw [split, List.append_assoc]
    refine .reading (htasks.trans task) hsplit ?_ ?_ (by rw [habort]; exact quit)
    · rw [hin, ← List.append_assoc, bytes]
      simp
    · intro p' rest hcons
      cases pending with
      | nil =>
        have hgot : got = [] := (List.append_eq_nil_iff.mp bytes).1
        rw [hgot]
        exact List.nil_prefix
      | cons p'' pending =>
        cases hcons
        exact within p' pending rfl
  | @handling handler handled pending task split bytes start reply quitting quit =>
    have hsplit : packets ++ [p] = handled ++ (pending ++ [p]) := by
      rw [split, List.append_assoc]
    refine .handling (htasks.trans task) hsplit ?_ start reply (by rw [habort]; exact quitting)
      (by rw [habort]; exact quit)
    rw [hin, bytes]
    simp
  | ended task aborted quit =>
    exact .ended (by rw [htasks]; exact task) (habort.trans aborted) (quit.append_left [p])

theorem cancel (h : ReadsPackets codec s n stream packets) (ha : s.aborted stream = true) :
    ReadsPackets codec (s.setTask stream .cancelled) n stream packets :=
  .ended (Or.inr (tasks_setTask_self s stream _)) ha (h.hasQuit_of_aborted ha)

end ReadsPackets

/-! ### Polling -/

/-- What a poll of the task of a stream does to the pool: nothing, a write on the
connection of the peer, or its removal after a Quit. -/
inductive PoolEffect (codec : Codec Bytes) (s s' : NodeState) (n : PeerID) (stream : StreamId)
    (packets : List Packet) : Prop
  | quiet (pool : s'.pool = s.pool) (aborted : s'.aborted = s.aborted)
      (written : s'.written = s.written)
  | replied {response p : Packet} {peer : PeerInfo} {body : Bytes}
      (task : s.tasks stream = .handling n stream (.reply response p))
      (isResponse : response.isResponse = true) (raw : codec.rawBytes response = .ok body)
      (entry : s.pool.connections[n]? = some peer) (pool : s'.pool = s.pool)
      (aborted : s'.aborted = s.aborted)
      (written : s'.written = (s.wrote peer.writeStream response).written)
  | quitted {body : Bytes} (quit : HasQuit packets)
      (raw : codec.rawBytes (.quit quitReceived) = .ok body)
      (alive : s.aborted stream = false) (pool : s'.pool = s.pool)
      (aborted : s'.aborted = s.aborted)
      (written : s'.written = (s.wrote stream (.quit quitReceived)).written)
  | removed (quit : HasQuit packets) (alive : s.aborted stream = false)
      (pool : s'.pool = s.pool.remove n)
      (aborted : s'.aborted = Function.update s.aborted stream true)
      (written : s'.written = s.written)

/-- A poll of the task of a stream leaves the other tasks and streams alone. -/
structure PollFrame (s s' : NodeState) (stream : StreamId) : Prop where
  tasks : ∀ t, t ≠ stream → s'.tasks t = s.tasks t
  inbound : ∀ stream', stream' ≠ stream → s'.inbound stream' = s.inbound stream'
  closed : s'.closed = s.closed
  next : s'.next = s.next

theorem prefix_frame_cases {got body : Bytes} (hbody : body.length < maxPacketSize)
    (h : got <+: frame body) :
    got = frame body ∨ (parse maxPacketSize got = .incomplete ∧ got.length < (frame body).length) := by
  rcases Nat.lt_or_ge got.length (frame body).length with hlt | hle
  · right
    rw [List.prefix_iff_eq_take.mp h]
    exact ⟨parse_take_frame maxPacketSize_le hbody (by simpa using hlt), by simpa using hlt⟩
  · exact Or.inl (h.eq_of_length_le hle)

theorem ReadsPackets.resume {s : NodeState} {n : PeerID} {stream : StreamId}
    {handler : Handler} {packets handled pending : List Packet}
    (task : s.tasks stream = .resume n stream handler) (split : packets = handled ++ pending)
    (bytes : s.inbound stream = pending.flatMap (packetFrame codec))
    (start : ∀ p, handler = .start p → p.isHandshake = false)
    (reply : ∀ response p, handler = .reply response p → response.isResponse = true)
    (quitting : handler.isQuitting = true → HasQuit handled ∧ s.aborted stream = false)
    (quit : handler.isQuitting = false → (HasQuit handled ↔ s.aborted stream = true)) :
    ReadsPackets codec s n stream packets := by
  cases handler with
  | finished => exact .reading task split bytes (fun _ _ _ => List.nil_prefix) (quit rfl)
  | _ => exact .handling task split bytes start reply quitting quit

/-- With writes that succeed, `on_packet` panics on packets of the handshake only. -/
theorem handlerSection_ne_none {s : NodeState} {n : PeerID} {shuffle : Shuffle}
    {handler : Handler} (hstart : ∀ p, handler = .start p → p.isHandshake = false)
    (hreply : ∀ response p, handler = .reply response p → response.isResponse = true) :
    s.handlerSection codec n true shuffle handler ≠ none := by
  have hsend : ∀ p, s.sendPacketUnchecked codec n p true ≠ none := by
    intro p
    rw [sendPacketUnchecked]
    cases codec.rawBytes p with
    | error e => simp
    | ok body => cases s.pool.connections[n]? <;> simp
  cases handler with
  | start p =>
    rw [handlerSection]
    cases hp : onPacket s.pool s.dht shuffle p with
    | none =>
      rw [onPacket_eq_none_iff, hstart p rfl] at hp
      cases hp
    | some r => simp
  | reply response p =>
    have hquit : s.sendPacket codec n response true = s.sendPacketUnchecked codec n response true := by
      cases response with
      | quit q => cases hreply (.quit q) p rfl
      | _ => rfl
    rw [handlerSection, hquit]
    cases hs : s.sendPacketUnchecked codec n response true with
    | none => exact absurd hs (hsend response)
    | some u => simp
  | disconnecting stage q =>
    cases stage with
    | quitting =>
      rw [handlerSection, disconnectSection]
      cases hs : s.sendPacketUnchecked codec n (.quit quitReceived) true with
      | none => exact absurd hs (hsend _)
      | some u => simp
    | removing =>
      rw [handlerSection, disconnectSection]
      cases s.pool.connections[n]? <;> simp
    | announcing => simp [handlerSection, disconnectSection]
  | _ => simp [handlerSection]

section PollTask

variable {s s' : NodeState} {n : PeerID} {stream : StreamId} {packets : List Packet}
  {shuffle : Shuffle}

theorem PollFrame.setTask (s : NodeState) (stream : StreamId) (task : ReadTask) :
    PollFrame s (s.setTask stream task) stream :=
  ⟨fun _ ht => tasks_setTask_of_ne s ht _, fun _ _ => rfl, rfl, rfl⟩

/-- What a task that reads has got is nothing, a part of the next frame, or the next
frame. -/
theorem parse_got {got inbound : Bytes} {pending : List Packet}
    (hcarried : ∀ p ∈ pending, Carried codec p)
    (bytes : got ++ inbound = pending.flatMap (packetFrame codec))
    (within : ∀ p rest, pending = p :: rest → got <+: packetFrame codec p) :
    (parse maxPacketSize got = .incomplete ∧ (pending = [] ∧ got = [] ∨
        ∃ p rest, pending = p :: rest ∧ got.length < (packetFrame codec p).length)) ∨
      ∃ p rest, pending = p :: rest ∧ got = packetFrame codec p ∧
        parse maxPacketSize got = .complete (encoded codec p) [] := by
  cases pending with
  | nil =>
    have hnil : got = [] := (List.append_eq_nil_iff.mp bytes).1
    exact Or.inl ⟨by rw [hnil]; rfl, Or.inl ⟨rfl, hnil⟩⟩
  | cons p rest =>
    have hp : Carried codec p := hcarried p (by simp)
    rcases prefix_frame_cases hp.rawBytes.2 (within p rest rfl) with heq | ⟨hparse, hlt⟩
    · have hparse := parse_frame_append maxPacketSize_le hp.rawBytes.2 []
      rw [List.append_nil, ← heq] at hparse
      exact Or.inr ⟨p, rest, rfl, heq, hparse⟩
    · exact Or.inl ⟨hparse, Or.inr ⟨p, rest, rfl, hlt⟩⟩

theorem ReadsPackets.readByte {got rest : Bytes} {b : UInt8} {handled pending : List Packet}
    (split : packets = handled ++ pending)
    (bytes : got ++ b :: rest = pending.flatMap (packetFrame codec))
    (next : pending = [] ∧ got = [] ∨
      ∃ p ps, pending = p :: ps ∧ got.length < (packetFrame codec p).length)
    (quit : HasQuit handled ↔ s.aborted stream = true) :
    ReadsPackets codec ({ s with inbound := Function.update s.inbound stream rest }.setTask stream
      (.reading n stream (got ++ [b]))) n stream packets := by
  have hrest : (Function.update s.inbound stream rest) stream = rest := Function.update_self _ _ _
  refine .reading (tasks_setTask_self _ _ (.reading n stream (got ++ [b]))) split ?_ ?_ quit
  · rw [← bytes]
    exact (congrArg (fun r => (got ++ [b]) ++ r) hrest).trans (by simp)
  · intro p ps hcons
    rcases next with ⟨rfl, -⟩ | ⟨p', ps', rfl, hlt⟩
    · cases hcons
    · cases hcons
      have hread : got ++ [b] <+: got ++ b :: rest := ⟨rest, by simp⟩
      refine List.prefix_of_prefix_length_le hread ⟨_, bytes.symm⟩ ?_
      rw [List.length_append, List.length_singleton]
      exact hlt

/-- The next packet.  If that is a Quit it is the only one, so the entry of the peer is
there. -/
theorem ReadsPackets.begin {p : Packet} {handled pending : List Packet}
    (hp : Carried codec p) (hone : HasQuit packets → ∃ q, packets = [.quit q])
    (split : packets = handled ++ p :: pending)
    (bytes : s.inbound stream = pending.flatMap (packetFrame codec))
    (quit : HasQuit handled ↔ s.aborted stream = true) :
    ReadsPackets codec (s.setTask stream (.handling n stream (.start p))) n stream packets := by
  have hsplit : packets = handled ++ [p] ++ pending := by rw [split]; simp
  refine .handling (tasks_setTask_self _ _ (.handling n stream (.start p))) hsplit bytes ?_
    (by simp) ?_ ?_
  · intro p' heq
    cases heq
    exact hp.not_handshake
  · intro hq
    obtain ⟨q, rfl⟩ : ∃ q, p = .quit q := by
      cases p with
      | quit q => exact ⟨q, rfl⟩
      | _ => cases hq
    have hnil : handled = [] := by
      obtain ⟨q', hq'⟩ := hone ⟨q, by rw [split]; simp⟩
      have hlen := congrArg List.length (split.symm.trans hq')
      simp only [List.length_append, List.length_cons, List.length_nil] at hlen
      exact List.length_eq_zero_iff.mp (by omega)
    have halive : s.aborted stream = false := by
      by_contra hne
      rw [hnil] at quit
      exact not_hasQuit_nil (quit.mpr (by simpa using hne))
    exact ⟨⟨q, by simp⟩, halive⟩
  · intro hq
    rw [hasQuit_append_singleton]
    refine Iff.trans ⟨fun hor => ?_, Or.inl⟩ quit
    rcases hor with hor | ⟨q, rfl⟩
    · exact hor
    · cases hq

theorem ReadsPackets.pollTask_reading {got : Bytes} {handled pending : List Packet}
    (hdec : ∀ p body, codec.rawBytes p = .ok body → codec.fromRawBytes body = .ok p)
    (hcarried : ∀ p ∈ packets, Carried codec p)
    (hone : HasQuit packets → ∃ q, packets = [.quit q])
    (hclosed : s.closed stream = true → HasQuit packets)
    (task : s.tasks stream = .reading n stream got) (split : packets = handled ++ pending)
    (bytes : got ++ s.inbound stream = pending.flatMap (packetFrame codec))
    (within : ∀ p rest, pending = p :: rest → got <+: packetFrame codec p)
    (quit : HasQuit handled ↔ s.aborted stream = true)
    (h : s.pollTask codec stream true shuffle = some s') :
    ReadsPackets codec s' n stream packets ∧ PollFrame s s' stream ∧
      PoolEffect codec s s' n stream packets := by
  have hpending : ∀ p ∈ pending, Carried codec p :=
    fun p hp => hcarried p (split ▸ List.mem_append_right handled hp)
  have hgot := parse_got hpending bytes within
  rcases pollTask_cases h with ⟨n', stream', got', ht, hcase⟩ | ⟨n', stream', handler, ht, -⟩
  · rw [task] at ht
    cases ht
    rcases hcase with ⟨b, rest, hin, hparse, rfl⟩ | ⟨hparse, hin, hcl, rfl⟩ | ⟨hparse, rfl⟩ |
      ⟨body, rest, handler, hparse, hhandler, rfl⟩
    · rcases hgot with ⟨-, hnext⟩ | ⟨p, ps, -, -, hcomplete⟩
      · rw [hin] at bytes
        exact ⟨readByte split bytes hnext quit,
          ⟨fun t ht => tasks_setTask_of_ne _ ht _,
            fun stream' hne => Function.update_of_ne hne _ _, rfl, rfl⟩, .quiet rfl rfl rfl⟩
      · rw [hparse] at hcomplete
        cases hcomplete
    · -- the end of the stream comes after everything that was sent
      rcases hgot with ⟨-, ⟨rfl, -⟩ | ⟨p, ps, rfl, hlt⟩⟩ | ⟨p, ps, -, -, hcomplete⟩
      · have haborted : s.aborted stream = true := by
          rw [List.append_nil] at split
          exact quit.mp (split ▸ hclosed hcl)
        exact ⟨.ended (Or.inl (tasks_setTask_self s stream _)) haborted (hclosed hcl),
          .setTask _ _ _, .quiet rfl rfl rfl⟩
      · rw [hin, List.append_nil, List.flatMap_cons] at bytes
        rw [bytes, List.length_append] at hlt
        omega
      · rw [hparse] at hcomplete
        cases hcomplete
    · rcases hgot with ⟨hinc, -⟩ | ⟨p, ps, -, -, hcomplete⟩
      · rw [hparse] at hinc
        cases hinc
      · rw [hparse] at hcomplete
        cases hcomplete
    · rcases hgot with ⟨hinc, -⟩ | ⟨p, ps, rfl, hframe, hcomplete⟩
      · rw [hparse] at hinc
        cases hinc
      · rw [hparse] at hcomplete
        cases hcomplete
        have hp : Carried codec p := hpending p (by simp)
        obtain rfl : handler = .start p := by
          have hp' := hdec p _ hp.rawBytes.1
          rcases hhandler with ⟨e, he, -⟩ | ⟨p', hp'', rfl⟩
          · rw [hp'] at he
            cases he
          · rw [hp'] at hp''
            cases hp''
            rfl
        rw [hframe, List.flatMap_cons] at bytes
        exact ⟨begin hp hone split (List.append_cancel_left bytes) quit, .setTask _ _ _,
          .quiet rfl rfl rfl⟩
  · rw [task] at ht
    cases ht

theorem ReadsPackets.pollTask_handling {handler : Handler} {handled pending : List Packet}
    (hentry : s.aborted stream = false → ∃ peer, s.pool.connections[n]? = some peer ∧
      peer.writeStream = stream ∧ peer.readStreamTask = stream)
    (task : s.tasks stream = .handling n stream handler) (split : packets = handled ++ pending)
    (bytes : s.inbound stream = pending.flatMap (packetFrame codec))
    (start : ∀ p, handler = .start p → p.isHandshake = false)
    (reply : ∀ response p, handler = .reply response p → response.isResponse = true)
    (quitting : handler.isQuitting = true → HasQuit handled ∧ s.aborted stream = false)
    (quit : handler.isQuitting = false → (HasQuit handled ↔ s.aborted stream = true))
    (h : s.pollTask codec stream true shuffle = some s') :
    ReadsPackets codec s' n stream packets ∧ PollFrame s s' stream ∧
      PoolEffect codec s s' n stream packets := by
  rcases pollTask_cases h with ⟨n', stream', got', ht, -⟩ | ⟨n', stream', handler', ht, hcase⟩
  · rw [task] at ht
    cases ht
  · rw [task] at ht
    cases ht
    rcases hcase with ⟨hnone, -⟩ | ⟨u, handler', hsec, rfl⟩
    · exact absurd hnone (handlerSection_ne_none start reply)
    · obtain ⟨hstart', hreply'⟩ := handlerSection_stop hsec
      have hstart : ∀ p, handler' = .start p → p.isHandshake = false :=
        fun p heq => absurd heq (hstart' p)
      have hframe : ∀ {v : NodeState}, v.tasks = s.tasks → v.inbound = s.inbound →
          v.closed = s.closed → v.next = s.next →
          PollFrame s (v.setTask stream (.resume n stream handler')) stream := by
        intro v htasks hin hcl hnext
        exact ⟨fun t hne => (tasks_setTask_of_ne v hne _).trans (congrFun htasks t),
          fun stream' _ => congrFun hin stream', hcl, hnext⟩
      rcases handlerSection_cases hsec with ⟨⟨dht, fired, rfl⟩, hq, -⟩ |
        ⟨response, p, peer, body, rfl, rfl, hne, hraw, hn, rfl⟩ | ⟨stage, q, next, rfl, rfl, hdisc⟩
      · refine ⟨.resume (tasks_setTask_self _ _ _) split bytes hstart hreply' ?_ ?_,
          hframe rfl rfl rfl rfl, .quiet rfl rfl rfl⟩
        · rw [hq]
          exact quitting
        · rw [hq]
          exact quit
      · exact ⟨.resume (tasks_setTask_self _ _ _) split bytes hstart hreply' (by simp [Handler.isQuitting])
          (fun _ => quit rfl), hframe rfl rfl rfl rfl,
          .replied task (reply response p rfl) hraw hn rfl rfl rfl⟩
      · rcases disconnectSection_cases hdisc with ⟨rfl, rfl, ⟨rfl, -⟩ | ⟨peer, body, hraw, hn, rfl⟩⟩ |
          ⟨rfl, ⟨rfl, hn, rfl⟩ | ⟨peer, rfl, hn, rfl⟩⟩ | ⟨rfl, rfl, rfl⟩
        · exact ⟨.resume (tasks_setTask_self _ _ _) split bytes hstart hreply' (fun _ => quitting rfl)
            (by simp [Handler.resume, Handler.isQuitting]), hframe rfl rfl rfl rfl, .quiet rfl rfl rfl⟩
        · obtain ⟨hquit, halive⟩ := quitting rfl
          obtain ⟨peer', hn', hwrite, -⟩ := hentry halive
          obtain rfl : peer = peer' := Option.some.inj (hn.symm.trans hn')
          exact ⟨.resume (tasks_setTask_self _ _ _) split bytes hstart hreply' (fun _ => quitting rfl)
            (by simp [Handler.resume, Handler.isQuitting]), hframe rfl rfl rfl rfl,
            .quitted (split ▸ hquit.append_left _) hraw halive rfl rfl (by rw [← hwrite]; rfl)⟩
        · obtain ⟨peer', hn', -⟩ := hentry (quitting rfl).2
          rw [hn] at hn'
          cases hn'
        · obtain ⟨hquit, halive⟩ := quitting rfl
          obtain ⟨peer', hn', -, htask⟩ := hentry halive
          obtain rfl : peer = peer' := Option.some.inj (hn.symm.trans hn')
          have haborted : (s.removePeer n peer).aborted = Function.update s.aborted stream true := by
            rw [← htask]
            rfl
          refine ⟨.resume (tasks_setTask_self _ _ _) split bytes hstart hreply'
            (by simp [Handler.resume, Handler.isQuitting]) (fun _ => ⟨fun _ => ?_, fun _ => hquit⟩),
            hframe rfl rfl rfl rfl, .removed (split ▸ hquit.append_left _) halive rfl haborted rfl⟩
          exact (congrFun haborted stream).trans (Function.update_self _ _ _)
        · exact ⟨.resume (tasks_setTask_self _ _ _) split bytes hstart hreply'
            (by simp [Handler.resume, Handler.isQuitting]) (fun _ => quit rfl),
            hframe rfl rfl rfl rfl, .quiet rfl rfl rfl⟩

/-- **A poll keeps the task in step with the packets.** -/
theorem ReadsPackets.pollTask (inv : ReadsPackets codec s n stream packets)
    (hdec : ∀ p body, codec.rawBytes p = .ok body → codec.fromRawBytes body = .ok p)
    (hcarried : ∀ p ∈ packets, Carried codec p)
    (hone : HasQuit packets → ∃ q, packets = [.quit q])
    (hclosed : s.closed stream = true → HasQuit packets)
    (hentry : s.aborted stream = false → ∃ peer, s.pool.connections[n]? = some peer ∧
      peer.writeStream = stream ∧ peer.readStreamTask = stream)
    (h : s.pollTask codec stream true shuffle = some s') :
    ReadsPackets codec s' n stream packets ∧ PollFrame s s' stream ∧
      PoolEffect codec s s' n stream packets := by
  cases inv with
  | reading task split bytes within quit =>
    exact pollTask_reading hdec hcarried hone hclosed task split bytes within quit h
  | handling task split bytes start reply quitting quit =>
    exact pollTask_handling hentry task split bytes start reply quitting quit h
  | ended task aborted quit =>
    rw [NodeState.pollTask] at h
    rcases task with task | task <;> simp [task] at h

end PollTask

/-! ### Running into a Quit -/

/-- The task of a stream takes a step that writes no response. -/
inductive TaskStep (codec : Codec Bytes) (stream : StreamId) (s s' : NodeState) : Prop
  | poll {shuffle : Shuffle}
      (quiet : ∀ n stream' response p,
        s.tasks stream ≠ .handling n stream' (.reply response p))
      (step : s.pollTask codec stream true shuffle = some s')
  | cancel (step : s.step codec (.cancel stream) = some s')

section Quits

variable {s u : NodeState} {n : PeerID} {stream : StreamId}

theorem pollTask_of_handling {t : TaskId} {handler handler' : Handler} {writes : Bool}
    {shuffle : Shuffle} (ht : s.tasks t = .handling n stream handler)
    (h : s.handlerSection codec n writes shuffle handler = some (u, handler')) :
    s.pollTask codec t writes shuffle = some (u.setTask t (.resume n stream handler')) := by
  simp only [NodeState.pollTask, ht, h]

theorem pollTask_of_byte {t : TaskId} {got rest body : Bytes} {b : UInt8} {writes : Bool}
    {shuffle : Shuffle} (hbody : body.length < maxPacketSize) (hgot : got ++ b :: rest = frame body)
    (ht : s.tasks t = .reading n stream got) (hin : s.inbound stream = b :: rest) :
    s.pollTask codec t writes shuffle =
      some ({ s with inbound := Function.update s.inbound stream rest }.setTask t
        (.reading n stream (got ++ [b]))) := by
  have hlen : got.length < (frame body).length := by
    rw [← hgot, List.length_append, List.length_cons]
    omega
  have hparse := parse_take_frame maxPacketSize_le hbody hlen
  rw [← hgot, List.take_left] at hparse
  simp only [NodeState.pollTask, ht, hparse, hin]

theorem pollTask_of_frame {t : TaskId} {body : Bytes} {p : Packet} {writes : Bool}
    {shuffle : Shuffle} (hbody : body.length < maxPacketSize) (hp : codec.fromRawBytes body = .ok p)
    (ht : s.tasks t = .reading n stream (frame body)) :
    s.pollTask codec t writes shuffle = some (s.setTask t (.handling n stream (.start p))) := by
  have hparse := parse_frame_append maxPacketSize_le hbody []
  rw [List.append_nil] at hparse
  simp only [NodeState.pollTask, ht, hparse, hp]

theorem exists_start {p : Packet} {body : Bytes} (hbody : body.length < maxPacketSize)
    (hp : codec.fromRawBytes body = .ok p) : ∀ (rest got : Bytes) (s : NodeState),
      s.tasks stream = .reading n stream got → s.inbound stream = rest →
      got ++ rest = frame body →
      ∃ u, Relation.ReflTransGen (TaskStep codec stream) s u ∧
        u.tasks stream = .handling n stream (.start p) ∧ u.pool = s.pool := by
  have hshuffle : Shuffle := ⟨id, fun _ => .refl _⟩
  intro rest
  induction rest with
  | nil =>
    intro got s ht _ hgot
    rw [List.append_nil] at hgot
    subst hgot
    have hstep : s.pollTask codec stream true hshuffle = _ := pollTask_of_frame hbody hp ht
    exact ⟨_, .single (.poll (by simp [ht]) hstep), tasks_setTask_self _ _ _, rfl⟩
  | cons b rest ih =>
    intro got s ht hin hgot
    obtain ⟨u, hu, htask, hpool⟩ := ih (got ++ [b])
      ({ s with inbound := Function.update s.inbound stream rest }.setTask stream
        (.reading n stream (got ++ [b])))
      (tasks_setTask_self _ _ _) (Function.update_self _ _ _) (by rw [← hgot]; simp)
    have hstep : s.pollTask codec stream true hshuffle = _ := pollTask_of_byte hbody hgot ht hin
    exact ⟨u, .head (.poll (by simp [ht]) hstep) hu, htask, hpool⟩

/-- A task that handles a Quit answers it and removes the peer, in three sections. -/
theorem exists_announcing {t : TaskId} {q : QuitPacket} {peer : PeerInfo} (shuffle : Shuffle)
    (ht : s.tasks t = .handling n stream (.start (.quit q)))
    (hn : s.pool.connections[n]? = some peer) (hpeer : peer.readStreamTask = t) :
    ∃ s₁ s₂ s₃, s.pollTask codec t true shuffle = some s₁ ∧
      s₁.tasks t = .handling n stream (.disconnecting .quitting q) ∧
      s₁.pollTask codec t true shuffle = some s₂ ∧
      s₂.tasks t = .handling n stream (.disconnecting .removing q) ∧
      s₂.pollTask codec t true shuffle = some s₃ ∧
      s₃.tasks = Function.update s.tasks t (.handling n stream (.disconnecting .announcing q)) ∧
      s₃.pool = s.pool.remove n ∧ s₃.aborted t = true ∧ s₃.inbound = s.inbound ∧
      s₃.closed = s.closed ∧ s₃.next = s.next := by
  -- the first section only looks at the packet
  let s₁ := s.setTask t (.handling n stream (.disconnecting .quitting q))
  have h₁ : s.pollTask codec t true shuffle = some s₁ := pollTask_of_handling ht rfl
  have ht₁ : s₁.tasks t = .handling n stream (.disconnecting .quitting q) :=
    tasks_setTask_self _ _ _
  -- the second answers it
  obtain ⟨v, hv, hpool, htasks, hrest⟩ : ∃ v,
      s₁.sendPacketUnchecked codec n (.quit quitReceived) true = some v ∧ v.pool = s.pool ∧
        v.tasks = s₁.tasks ∧ v.inbound = s.inbound ∧ v.closed = s.closed ∧ v.next = s.next := by
    rw [sendPacketUnchecked]
    cases codec.rawBytes (.quit quitReceived) with
    | error e => exact ⟨s₁, rfl, rfl, rfl, rfl, rfl, rfl⟩
    | ok body =>
      have hn₁ : s₁.pool.connections[n]? = some peer := hn
      simp only [hn₁]
      exact ⟨_, rfl, rfl, rfl, rfl, rfl, rfl⟩
  let s₂ := v.setTask t (.handling n stream (.disconnecting .removing q))
  have hsec₂ : s₁.handlerSection codec n true shuffle (.disconnecting .quitting q) =
      some (v, .disconnecting .removing q) := by
    rw [handlerSection, disconnectSection, hv]
    rfl
  have h₂ : s₁.pollTask codec t true shuffle = some s₂ := pollTask_of_handling ht₁ hsec₂
  have ht₂ : s₂.tasks t = .handling n stream (.disconnecting .removing q) :=
    tasks_setTask_self _ _ _
  -- the third removes the peer
  have hn₂ : s₂.pool.connections[n]? = some peer := by
    have heq : s₂.pool = s.pool := hpool
    rw [heq, hn]
  let s₃ := (s₂.removePeer n peer).setTask t (.handling n stream (.disconnecting .announcing q))
  have hsec₃ : s₂.handlerSection codec n true shuffle (.disconnecting .removing q) =
      some (s₂.removePeer n peer, .disconnecting .announcing q) := by
    rw [handlerSection, disconnectSection, hn₂]
    rfl
  have h₃ : s₂.pollTask codec t true shuffle = some s₃ := pollTask_of_handling ht₂ hsec₃
  have htasks₃ : s₃.tasks =
      Function.update s.tasks t (.handling n stream (.disconnecting .announcing q)) := by
    show Function.update (Function.update v.tasks t _) t _ = _
    rw [htasks]
    simp only [s₁, setTask, Function.update_idem]
  have haborted : s₃.aborted t = true := by
    rw [← hpeer]
    exact Function.update_self _ _ _
  exact ⟨s₁, s₂, s₃, h₁, ht₁, h₂, ht₂, h₃, htasks₃, congrArg (·.remove n) hpool, haborted, hrest⟩

/-- **A Quit ends the task that reads it.** -/
theorem exists_cancelled {q : QuitPacket} {peer : PeerInfo}
    (ht : s.tasks stream = .handling n stream (.start (.quit q)))
    (hn : s.pool.connections[n]? = some peer) (hpeer : peer.readStreamTask = stream) :
    ∃ u, Relation.ReflTransGen (TaskStep codec stream) s u ∧ u.tasks stream = .cancelled := by
  obtain ⟨s₁, s₂, s₃, h₁, ht₁, h₂, ht₂, h₃, htasks, -, haborted, -⟩ :=
    exists_announcing ⟨id, fun _ => .refl _⟩ ht hn hpeer
  -- the task is dropped where it stands
  have halive : (s₃.tasks stream).isAlive = true := by
    rw [htasks, Function.update_self]
    rfl
  have h₄ : s₃.step codec (.cancel stream) = some (s₃.setTask stream .cancelled) := by
    rw [NodeState.step, haborted, halive]
    rfl
  refine ⟨_, .head (.poll (by simp [ht]) h₁) (.head (.poll (by simp [ht₁]) h₂)
    (.head (.poll (by simp [ht₂]) h₃) (.single (.cancel h₄)))), tasks_setTask_self _ _ _⟩

/-- A frame arrives on a stream, and the task of the stream is polled until it has
decoded it. -/
def receive (t : TaskId) (stream : StreamId) (body : Bytes) : List NodeLabel :=
  .arrive stream (frame body) ::
    List.replicate ((frame body).length + 1) (.poll t true ⟨id, Shuffle.perm_id⟩)

theorem exec_polls {t : TaskId} {p : Packet} {body : Bytes} (hbody : body.length < maxPacketSize)
    (hp : codec.fromRawBytes body = .ok p) : ∀ (rest got : Bytes) (s : NodeState),
      s.tasks t = .reading n stream got → s.inbound stream = rest → got ++ rest = frame body →
      exec (NodeState.step codec) s
          (List.replicate (rest.length + 1) (.poll t true ⟨id, fun _ => .refl _⟩)) =
        some ({ s with inbound := Function.update s.inbound stream [] }.setTask t
          (.handling n stream (.start p))) := by
  intro rest
  induction rest with
  | nil =>
    intro got s ht hin hgot
    rw [List.append_nil] at hgot
    subst hgot
    have hself : { s with inbound := Function.update s.inbound stream [] } = s := by
      rw [← hin, Function.update_eq_self]
    rw [List.length_nil, Nat.zero_add, List.replicate_one, exec_singleton, hself]
    exact pollTask_of_frame hbody hp ht
  | cons b rest ih =>
    intro got s ht hin hgot
    have hnext := ih (got ++ [b])
      ({ s with inbound := Function.update s.inbound stream rest }.setTask t
        (.reading n stream (got ++ [b])))
      (tasks_setTask_self _ _ _) (Function.update_self _ _ _) (by rw [← hgot]; simp)
    rw [List.length_cons, List.replicate_succ]
    refine exec_cons_eq_some.mpr ⟨_, pollTask_of_byte hbody hgot ht hin, ?_⟩
    rw [hnext]
    simp [NodeState.setTask]

/-- **A task that receives a packet** stands at the beginning of `on_packet`. -/
theorem exec_receive {t : TaskId} {p : Packet} {body : Bytes} (hbody : body.length < maxPacketSize)
    (hp : codec.fromRawBytes body = .ok p) (ht : s.tasks t = .reading n stream [])
    (hin : s.inbound stream = []) (hopen : s.closed stream = false) :
    exec (NodeState.step codec) s (receive t stream body) =
      some (s.setTask t (.handling n stream (.start p))) := by
  let u : NodeState := { s with inbound := Function.update s.inbound stream (frame body) }
  have harrive : s.step codec (.arrive stream (frame body)) = some u := by
    rw [NodeState.step, hopen, hin]
    rfl
  have hpolls := exec_polls hbody hp (frame body) [] u ht (Function.update_self _ _ _) rfl
  have hself : { u with inbound := Function.update u.inbound stream [] } = s := by
    simp only [u, Function.update_idem]
    rw [← hin, Function.update_eq_self]
  rw [receive]
  refine exec_cons_eq_some.mpr ⟨u, harrive, ?_⟩
  rw [hpolls, hself]

end Quits

end Tewta
