import Tewta.Handshake.Agreement
import Tewta.Node.System

/-!
# Who gets into the pool

`handshake` runs `handshake_raw` on a stream, and when that has a peer it inserts the stream
into the pool; the pool may know the peer by then, as the lock is not held in between.  Here
any number of calls run side by side, each on the stream it was given, with whatever bytes
the remote sends on it, while entries are removed and updated by the rest of the node.
-/

namespace Tewta

open Framing Transition PeerID

variable {PrivateKey Seed : Type} {crates : Crates Bytes PrivateKey Seed}

/-- Where a call of `handshake` stands: in `handshake_raw`, until its result is dealt with;
or at its end. -/
inductive Admitting
  | raw (stage : Stage)
  | ended (result : Except HandshakeError PeerID)
  | panicked
  | dropped

/-- A call of `handshake`.  `inbound` are the bytes on the stream that are not read yet, and
`received` the bodies of the frames that were read. -/
structure HandshakeCall (Seed : Type) where
  stream : StreamId
  expectedPeerId : Option PeerID
  draws : Draws Seed
  inbound : Bytes
  received : List Bytes
  progress : Admitting

/-- A node and its calls of `handshake`, by number. -/
structure AdmissionState (Seed : Type) where
  pool : ConnectionPool
  calls : ℕ → Option (HandshakeCall Seed)
  next : TaskId

/-- What `handshake_raw` meets. -/
inductive RawEvent
  /-- it writes a frame, or fails to -/
  | write (result : Except ExternalError Unit)
  /-- it reads a frame -/
  | read
  /-- reading fails, or the stream ends -/
  | readFails (e : ExternalError)
  /-- the pool is asked -/
  | check

inductive AdmissionLabel (Seed : Type)
  /-- `handshake` is called -/
  | start (c : ℕ) (stream : StreamId) (expectedPeerId : Option PeerID) (draws : Draws Seed)
  /-- the remote sends bytes -/
  | arrive (c : ℕ) (bytes : Bytes)
  /-- a call is in `handshake_raw` -/
  | raw (c : ℕ) (event : RawEvent)
  /-- `handshake_raw` has a peer, and `insert` has the lock -/
  | insert (c : ℕ)
  /-- `handshake_raw` has failed, and the Quit is written, or is not -/
  | quit (c : ℕ) (result : Except ExternalError Unit)
  /-- a call is dropped, as when it times out -/
  | drop (c : ℕ)
  /-- `disconnect` removes a peer -/
  | remove (n : PeerID)
  | setPing (n : PeerID) (pingNanos : ℕ)

/-- The call that a label is about. -/
def AdmissionLabel.call? : AdmissionLabel Seed → Option ℕ
  | .start c _ _ _ => some c
  | .arrive c _ => some c
  | .raw c _ => some c
  | .insert c => some c
  | .quit c _ => some c
  | .drop c => some c
  | .remove _ => none
  | .setPing _ _ => none

namespace HandshakeCall

def endpoint (call : HandshakeCall Seed) (identity : Identity crates) : Endpoint crates :=
  ⟨identity, call.expectedPeerId, call.draws⟩

/-- The call gets to a stage. -/
def setStage (call : HandshakeCall Seed) (stage : Stage) : HandshakeCall Seed :=
  { call with progress := .raw stage }

/-- `handshake_raw`, from one suspension to the next. -/
def handshakeRaw (call : HandshakeCall Seed) (identity : Identity crates)
    (pool : ConnectionPool) (stage : Stage) (event : RawEvent) : Option (HandshakeCall Seed) :=
  match event, stage.awaits (call.endpoint identity) with
  | .write (.ok ()), .write (.ok _) => some (call.setStage stage.sent)
  | .write (.error e), .write (.ok _) => some (call.setStage (stage.failed (.ioError e)))
  | .write _, .write (.error e) => some (call.setStage (stage.failed e))
  | .read, .frame =>
    match parse maxPacketSize call.inbound with
    | .incomplete => none
    | .tooLarge => some (call.setStage (stage.failed .packetTooLarge))
    | .complete body rest =>
      some { call with
        inbound := rest
        received := call.received ++ [body]
        progress := .raw (stage.received (call.endpoint identity) body) }
  | .readFails e, .frame => some (call.setStage (stage.failed (.ioError e)))
  | .check, .contains peerId => some (call.setStage (stage.checked (pool.contains peerId)))
  | _, _ => none

end HandshakeCall

namespace AdmissionState

/-- A node that knows nobody. -/
def init (ourPeerId : PeerID) : AdmissionState Seed where
  pool := ConnectionPool.new ourPeerId
  calls _ := none
  next := 0

def setCall (s : AdmissionState Seed) (c : ℕ) (call : HandshakeCall Seed) :
    AdmissionState Seed :=
  { s with calls := Function.update s.calls c (some call) }

/-- A call has come to an end. -/
def finish (s : AdmissionState Seed) (c : ℕ) (call : HandshakeCall Seed)
    (progress : Admitting) : AdmissionState Seed :=
  s.setCall c { call with progress }

/-- What a call has returned. -/
def result (s : AdmissionState Seed) (c : ℕ) : Option (Except HandshakeError PeerID) :=
  match s.calls c with
  | some call =>
    match call.progress with
    | .ended result => some result
    | _ => none
  | none => none

/-- `handshake` with a peer: `ConnectionPool::insert`, and what is made of its result. -/
def insert (codec : Codec Bytes) (s : AdmissionState Seed) (c : ℕ) (call : HandshakeCall Seed)
    (peerId : PeerID) (addr : String) : AdmissionState Seed :=
  if s.pool.contains peerId then
    match codec.rawBytes (.quit alreadyConnected) with
    | .ok _ => s.finish c call (.ended (.error .alreadyConnected))
    | .error _ => s.finish c call .panicked
  else
    { s.finish c call (.ended (.ok peerId)) with
      pool := s.pool.insert peerId
        { addr, writeStream := call.stream, pingNanos := none, readStreamTask := s.next }
      next := s.next + 1 }

/-- `handshake` without one: the Quit is written. -/
def quit (codec : Codec Bytes) (s : AdmissionState Seed) (c : ℕ) (call : HandshakeCall Seed)
    (e : HandshakeError) (result : Except ExternalError Unit) : AdmissionState Seed :=
  match codec.rawBytes (.quit e.toQuit), result with
  | .error e', _ => s.finish c call (.ended (.error (.protocolError e')))
  | .ok _, .error e' => s.finish c call (.ended (.error (.ioError e')))
  | .ok _, .ok () => s.finish c call (.ended (.error e))

def step (identity : Identity crates) (s : AdmissionState Seed) :
    AdmissionLabel Seed → Option (AdmissionState Seed)
  | .start c stream expectedPeerId draws =>
    match s.calls c with
    | none =>
      some (s.setCall c
        { stream, expectedPeerId, draws
          inbound := []
          received := []
          progress := .raw .sendVersion })
    | some _ => none
  | .arrive c bytes =>
    (s.calls c).map fun call => s.setCall c { call with inbound := call.inbound ++ bytes }
  | .raw c event =>
    match s.calls c with
    | some call =>
      match call.progress with
      | .raw stage => (call.handshakeRaw identity s.pool stage event).map (s.setCall c)
      | _ => none
    | none => none
  | .insert c =>
    match s.calls c with
    | some call =>
      match call.progress with
      | .raw (.ok theirPeerId addr _) => some (s.insert crates.toCodec c call theirPeerId addr)
      | _ => none
    | none => none
  | .quit c result =>
    match s.calls c with
    | some call =>
      match call.progress with
      | .raw (.err e) => some (s.quit crates.toCodec c call e result)
      | _ => none
    | none => none
  | .drop c =>
    match s.calls c with
    | some call =>
      match call.progress with
      | .raw _ => some (s.finish c call .dropped)
      | _ => none
    | none => none
  | .remove n => some { s with pool := s.pool.remove n }
  | .setPing n pingNanos =>
    match s.pool.connections[n]? with
    | some peer =>
      some { s with pool := s.pool.insert n { peer with pingNanos := some pingNanos } }
    | none => none

end AdmissionState

/-! ### What the stages have made sure of -/

/-- A peer that may be let in: not the node itself, and the one that was expected. -/
structure Endpoint.Admits (ep : Endpoint crates) (n : PeerID) : Prop where
  ne : n ≠ ep.identity.peerId
  expected : ∀ expected, ep.expectedPeerId = some expected → n = expected

/-- The key that was given to `AesKey::clone_from_slice`. -/
def Stage.aesKey? : Stage → Option Bytes
  | .sendEhlo _ aesKey => some aesKey
  | .recvEhlo _ aesKey => some aesKey
  | .ok _ _ aesKey => some aesKey
  | _ => none

/-- What the checks up to a stage have made sure of. -/
def Stage.Vetted (ep : Endpoint crates) : Stage → Prop
  | .checkPool key _ => ep.Admits (fromRsaPublicKey crates.sha256 key)
  | .sendAes key _ => ep.Admits (fromRsaPublicKey crates.sha256 key)
  | .recvAes key => ep.Admits (fromRsaPublicKey crates.sha256 key)
  | .sendEhlo n aesKey => ep.Admits n ∧ aesKey.length = 32
  | .recvEhlo n aesKey => ep.Admits n ∧ aesKey.length = 32
  | .ok n _ aesKey => ep.Admits n ∧ aesKey.length = 32
  | _ => True

theorem length_concatAesKeyParts {ourPeerId theirPeerId : PeerID} {ourPart theirPart aesKey : Bytes}
    (h : concatAesKeyParts ourPeerId theirPeerId ourPart theirPart = .ok aesKey) :
    aesKey.length = ourPart.length + theirPart.length := by
  rw [concatAesKeyParts] at h
  split at h
  · cases h
    rw [List.length_append]
  · cases h
    rw [List.length_append, Nat.add_comm]
  · cases h

namespace Stage

variable (ep : Endpoint crates) {stage : Stage}

theorem vetted_decoded {next : Packet → Stage} (h : ∀ p, (next p).Vetted ep) (body : Bytes) :
    (decoded crates next body).Vetted ep := by
  rw [decoded]
  split
  · exact h _
  · trivial

theorem Vetted.received (h : stage.Vetted ep) (body : Bytes) :
    (stage.received ep body).Vetted ep := by
  cases stage with
  | recvVersion =>
    refine vetted_decoded ep (fun p => ?_) body
    rcases receivedVersion_cases p with heq | ⟨e, heq⟩ <;> rw [heq] <;> trivial
  | recvRsa =>
    refine vetted_decoded ep (fun p => ?_) body
    rcases receivedRsa_cases ep p with ⟨q, key, -, -, -, hne, hexp, heq⟩ | ⟨e, heq⟩
    · rw [heq]
      exact ⟨hne, hexp⟩
    · rw [heq]
      trivial
  | recvAes key =>
    rw [Stage.received]
    split
    · refine vetted_decoded ep (fun p => ?_) _
      rcases receivedAes_cases ep key p with ⟨q, aesKey, -, hlen, -, hkey, heq⟩ | ⟨e, heq⟩
      · rw [heq]
        refine ⟨h, ?_⟩
        rw [length_concatAesKeyParts hkey, ep.draws.aesKeyPart_length, hlen]
      · rw [heq]
        trivial
    · trivial
  | recvEhlo n aesKey =>
    refine vetted_decoded ep (fun p => ?_) body
    rcases receivedEhlo_cases n aesKey p with ⟨q, -, heq⟩ | ⟨e, heq⟩
    · rw [heq]
      exact h
    · rw [heq]
      trivial
  | _ => exact h

theorem Vetted.sent (h : stage.Vetted ep) : stage.sent.Vetted ep := by
  cases stage <;> exact h

theorem Vetted.checked (h : stage.Vetted ep) (contains : Bool) :
    (stage.checked contains).Vetted ep := by
  cases stage with
  | checkPool key nonce =>
    cases contains with
    | true => trivial
    | false => exact h
  | _ => exact h

theorem Vetted.failed (h : stage.Vetted ep) (e : HandshakeError) :
    (stage.failed e).Vetted ep := by
  cases stage with
  | ok n addr aesKey => exact h
  | _ => trivial

theorem Vetted.aesKey (h : stage.Vetted ep) {aesKey : Bytes} (hkey : stage.aesKey? = some aesKey) :
    aesKey.length = 32 := by
  cases stage with
  | sendEhlo n key =>
    cases hkey
    exact h.2
  | recvEhlo n key =>
    cases hkey
    exact h.2
  | ok n addr key =>
    cases hkey
    exact h.2
  | _ => cases hkey

/-- A call that waits for something has not returned a peer, and does not by a write, an
answer of the pool or an error. -/
theorem ne_ok_of_awaits (h : stage.awaits ep ≠ .returned) (n : PeerID) (addr : String)
    (aesKey : Bytes) : stage.sent ≠ .ok n addr aesKey ∧
      (∀ contains, stage.checked contains ≠ .ok n addr aesKey) ∧
      ∀ e, stage.failed e ≠ .ok n addr aesKey := by
  cases stage with
  | ok n addr aesKey => exact absurd rfl h
  | checkPool key nonce => exact ⟨by rintro ⟨⟩, by rintro (_ | _) ⟨⟩, by rintro e ⟨⟩⟩
  | _ => exact ⟨by rintro ⟨⟩, by rintro (_ | _) ⟨⟩, by rintro e ⟨⟩⟩

theorem decoded_eq_ok {next : Packet → Stage} {body : Bytes} {n : PeerID} {addr : String}
    {aesKey : Bytes} (h : decoded crates next body = .ok n addr aesKey) :
    ∃ p, crates.fromRawBytes body = .ok p ∧ next p = .ok n addr aesKey := by
  rw [decoded] at h
  split at h
  · rename_i p hp
    exact ⟨p, hp, h⟩
  · cases h

/-- **The address is that of the Ehlo** that was read last. -/
theorem received_eq_ok (h : stage.awaits ep = .frame) {body : Bytes} {n : PeerID}
    {addr : String} {aesKey : Bytes} (hok : stage.received ep body = .ok n addr aesKey) :
    crates.fromRawBytes body = .ok (.ehlo { addr }) := by
  cases stage with
  | recvVersion =>
    obtain ⟨p, -, hp⟩ := decoded_eq_ok hok
    rcases receivedVersion_cases p with heq | ⟨e, heq⟩ <;> cases heq.symm.trans hp
  | recvRsa =>
    obtain ⟨p, -, hp⟩ := decoded_eq_ok hok
    rcases receivedRsa_cases ep p with ⟨q, key, -, -, -, -, -, heq⟩ | ⟨e, heq⟩ <;>
      cases heq.symm.trans hp
  | recvAes key =>
    rw [Stage.received] at hok
    split at hok
    · obtain ⟨p, -, hp⟩ := decoded_eq_ok hok
      rcases receivedAes_cases ep key p with ⟨q, aesKey, -, -, -, -, heq⟩ | ⟨e, heq⟩ <;>
        cases heq.symm.trans hp
    · cases hok
  | recvEhlo m key =>
    obtain ⟨p, hbody, hp⟩ := decoded_eq_ok hok
    rcases receivedEhlo_cases m key p with ⟨q, rfl, heq⟩ | ⟨e, heq⟩
    · cases heq.symm.trans hp
      exact hbody
    · cases heq.symm.trans hp
  | _ => cases h

end Stage

/-! ### Calls -/

/-- What is known of a call in `handshake_raw`. -/
structure HandshakeCall.Sound (call : HandshakeCall Seed) (identity : Identity crates) :
    Prop where
  vetted : ∀ stage, call.progress = .raw stage → stage.Vetted (call.endpoint identity)
  ehlo : ∀ n addr aesKey, call.progress = .raw (.ok n addr aesKey) →
    ∃ body, call.received.getLast? = some body ∧ crates.fromRawBytes body = .ok (.ehlo { addr })

namespace HandshakeCall

variable {identity : Identity crates} {call call' : HandshakeCall Seed} {stage : Stage}

theorem Sound.setStage (hvetted : stage.Vetted (call.endpoint identity))
    (hne : ∀ n addr aesKey, stage ≠ .ok n addr aesKey) :
    (call.setStage stage).Sound identity := by
  refine ⟨fun stage' h => ?_, fun n addr aesKey h => ?_⟩
  · cases h
    exact hvetted
  · cases h
    exact absurd rfl (hne n addr aesKey)

theorem Sound.of_progress {progress : Admitting} (h : ∀ stage, progress ≠ .raw stage) :
    ({ call with progress } : HandshakeCall Seed).Sound identity :=
  ⟨fun stage hraw => absurd hraw (h stage), fun _ _ _ hraw => absurd hraw (h _)⟩

theorem Sound.waits (inv : call.Sound identity) (hstage : call.progress = .raw stage)
    (hawaits : stage.awaits (call.endpoint identity) ≠ .returned) :
    (call.setStage stage.sent).Sound identity ∧
      (∀ contains, (call.setStage (stage.checked contains)).Sound identity) ∧
      ∀ e, (call.setStage (stage.failed e)).Sound identity := by
  have hvetted := inv.vetted stage hstage
  have hne := Stage.ne_ok_of_awaits _ hawaits
  refine ⟨.setStage hvetted.sent fun n addr key => (hne n addr key).1, fun contains => ?_,
    fun e => ?_⟩
  · exact .setStage (hvetted.checked _ contains) fun n addr key => (hne n addr key).2.1 contains
  · exact .setStage (hvetted.failed _ e) fun n addr key => (hne n addr key).2.2 e

/-- **A section of `handshake_raw`** keeps what is known. -/
theorem Sound.handshakeRaw (inv : call.Sound identity) (hstage : call.progress = .raw stage)
    {pool : ConnectionPool} {event : RawEvent}
    (h : call.handshakeRaw identity pool stage event = some call') : call'.Sound identity := by
  have hwaits := inv.waits hstage
  unfold HandshakeCall.handshakeRaw at h
  split at h
  · rename_i hawaits
    cases h
    exact (hwaits (by rw [hawaits]; rintro ⟨⟩)).1
  · rename_i hawaits
    cases h
    exact (hwaits (by rw [hawaits]; rintro ⟨⟩)).2.2 _
  · rename_i hawaits
    cases h
    exact (hwaits (by rw [hawaits]; rintro ⟨⟩)).2.2 _
  · rename_i hawaits
    split at h
    · cases h
    · cases h
      exact (hwaits (by rw [hawaits]; rintro ⟨⟩)).2.2 _
    · rename_i body rest hparse
      cases h
      refine ⟨fun stage' hstage' => ?_, fun n addr aesKey hok => ?_⟩
      · cases hstage'
        exact (inv.vetted stage hstage).received _ body
      · have hok' : stage.received (call.endpoint identity) body = .ok n addr aesKey :=
          Admitting.raw.inj hok
        exact ⟨body, List.getLast?_concat, Stage.received_eq_ok _ hawaits hok'⟩
  · rename_i hawaits
    cases h
    exact (hwaits (by rw [hawaits]; rintro ⟨⟩)).2.2 _
  · rename_i hawaits
    cases h
    exact (hwaits (by rw [hawaits]; rintro ⟨⟩)).2.1 _
  · cases h

theorem handshakeRaw_read {pool : ConnectionPool} {body rest : Bytes}
    (hawaits : stage.awaits (call.endpoint identity) = .frame)
    (hparse : parse maxPacketSize call.inbound = .complete body rest) :
    call.handshakeRaw identity pool stage .read = some { call with
      inbound := rest
      received := call.received ++ [body]
      progress := .raw (stage.received (call.endpoint identity) body) } := by
  simp only [HandshakeCall.handshakeRaw, hawaits, hparse]

theorem progress_handshakeRaw {pool : ConnectionPool} {event : RawEvent}
    (h : call.handshakeRaw identity pool stage event = some call') :
    ∃ stage', call'.progress = .raw stage' := by
  unfold HandshakeCall.handshakeRaw at h
  split at h
  · cases h
    exact ⟨_, rfl⟩
  · cases h
    exact ⟨_, rfl⟩
  · cases h
    exact ⟨_, rfl⟩
  · split at h
    · cases h
    · cases h
      exact ⟨_, rfl⟩
    · cases h
      exact ⟨_, rfl⟩
  · cases h
    exact ⟨_, rfl⟩
  · cases h
    exact ⟨_, rfl⟩
  · cases h

end HandshakeCall

/-! ### Steps -/

namespace AdmissionState

variable {identity : Identity crates} {s s' : AdmissionState Seed}

/-- What one step can be. -/
inductive Stepped (identity : Identity crates) (s : AdmissionState Seed) :
    AdmissionLabel Seed → AdmissionState Seed → Prop
  | start {c stream expectedPeerId draws} : s.calls c = none →
      Stepped identity s (.start c stream expectedPeerId draws) (s.setCall c
        ⟨stream, expectedPeerId, draws, [], [], .raw .sendVersion⟩)
  | arrive {c call bytes} : s.calls c = some call → Stepped identity s (.arrive c bytes)
      (s.setCall c { call with inbound := call.inbound ++ bytes })
  | raw {c call call' stage event} : s.calls c = some call → call.progress = .raw stage →
      call.handshakeRaw identity s.pool stage event = some call' →
      Stepped identity s (.raw c event) (s.setCall c call')
  | fails {l c call stage progress} : l.call? = some c → s.calls c = some call →
      call.progress = .raw stage → (∀ stage, progress ≠ .raw stage) →
      (∀ n, progress ≠ .ended (.ok n)) → Stepped identity s l (s.finish c call progress)
  | admitted {c call n addr aesKey} : s.calls c = some call →
      call.progress = .raw (.ok n addr aesKey) → s.pool.connections[n]? = none →
      Stepped identity s (.insert c) { s.finish c call (.ended (.ok n)) with
        pool := s.pool.insert n
          { addr, writeStream := call.stream, pingNanos := none, readStreamTask := s.next }
        next := s.next + 1 }
  | remove {n} : Stepped identity s (.remove n) { s with pool := s.pool.remove n }
  | setPing {n peer pingNanos} : s.pool.connections[n]? = some peer →
      Stepped identity s (.setPing n pingNanos)
        { s with pool := s.pool.insert n { peer with pingNanos := some pingNanos } }

theorem stepped_quit {c : ℕ} {call : HandshakeCall Seed} {e : HandshakeError}
    (hcall : s.calls c = some call) (hraw : call.progress = .raw (.err e))
    (result : Except ExternalError Unit) :
    Stepped identity s (.quit c result) (s.quit crates.toCodec c call e result) := by
  unfold quit
  split <;> exact .fails rfl hcall hraw (by rintro _ ⟨⟩) (by rintro _ ⟨⟩)

theorem stepped_insert {c : ℕ} {call : HandshakeCall Seed} {n : PeerID} {addr : String}
    {aesKey : Bytes} (hcall : s.calls c = some call)
    (hraw : call.progress = .raw (.ok n addr aesKey)) :
    Stepped identity s (.insert c) (s.insert crates.toCodec c call n addr) := by
  rw [insert]
  split
  · split <;> exact .fails rfl hcall hraw (by rintro _ ⟨⟩) (by rintro _ ⟨⟩)
  · rename_i habsent
    rw [ConnectionPool.contains_eq_isSome, Bool.not_eq_true, Option.isSome_eq_false_iff,
      Option.isNone_iff_eq_none] at habsent
    exact .admitted hcall hraw habsent

theorem step_cases {l : AdmissionLabel Seed} (h : s.step identity l = some s') :
    Stepped identity s l s' := by
  cases l with
  | start c stream expectedPeerId draws =>
    rw [step] at h
    split at h
    · rename_i hcall
      cases h
      exact .start hcall
    · cases h
  | arrive c bytes =>
    obtain ⟨call, hcall, rfl⟩ := Option.map_eq_some_iff.mp h
    exact .arrive hcall
  | raw c event =>
    rw [step] at h
    split at h
    · rename_i hcall
      split at h
      · rename_i hraw
        obtain ⟨call', hcall', rfl⟩ := Option.map_eq_some_iff.mp h
        exact .raw hcall hraw hcall'
      · cases h
    · cases h
  | insert c =>
    rw [step] at h
    split at h
    · rename_i hcall
      split at h
      · rename_i hraw
        cases h
        exact stepped_insert hcall hraw
      · cases h
    · cases h
  | quit c result =>
    rw [step] at h
    split at h
    · rename_i hcall
      split at h
      · rename_i hraw
        cases h
        exact stepped_quit hcall hraw result
      · cases h
    · cases h
  | drop c =>
    rw [step] at h
    split at h
    · rename_i hcall
      split at h
      · rename_i hraw
        cases h
        exact .fails rfl hcall hraw (by rintro _ ⟨⟩) (by rintro _ ⟨⟩)
      · cases h
    · cases h
  | remove n =>
    cases h
    exact .remove
  | setPing n pingNanos =>
    rw [step] at h
    split at h
    · rename_i hpeer
      cases h
      exact .setPing hpeer
    · cases h

/-- What is known of all calls. -/
def Sound (identity : Identity crates) (s : AdmissionState Seed) : Prop :=
  ∀ c call, s.calls c = some call → call.Sound identity

theorem Sound.setCall (inv : s.Sound identity) {c : ℕ} {call : HandshakeCall Seed}
    (hcall : call.Sound identity) : (s.setCall c call).Sound identity := by
  intro c' call' h
  rcases update_eq_cases h with ⟨-, heq⟩ | ⟨-, h⟩
  · cases heq
    exact hcall
  · exact inv c' call' h

theorem Sound.step (inv : s.Sound identity) {l : AdmissionLabel Seed}
    (h : s.step identity l = some s') : s'.Sound identity := by
  cases step_cases h with
  | start _ =>
    refine inv.setCall ⟨fun stage hstage => ?_, fun n addr aesKey hok => ?_⟩
    · cases hstage
      trivial
    · cases hok
  | arrive hcall => exact inv.setCall ⟨(inv _ _ hcall).vetted, (inv _ _ hcall).ehlo⟩
  | raw hcall hraw hcall' => exact inv.setCall ((inv _ _ hcall).handshakeRaw hraw hcall')
  | fails _ hcall _ hprogress _ => exact inv.setCall (.of_progress hprogress)
  | @admitted c call n addr aesKey hcall _ _ =>
    have hsound : (s.finish c call (.ended (.ok n))).Sound identity :=
      inv.setCall (.of_progress (by rintro _ ⟨⟩))
    exact hsound
  | remove => exact inv
  | setPing _ => exact inv

theorem result_eq_some {c : ℕ} {result : Except HandshakeError PeerID} :
    s.result c = some result ↔ ∃ call, s.calls c = some call ∧ call.progress = .ended result := by
  rw [AdmissionState.result]
  constructor
  · intro h
    split at h
    · rename_i call hcall
      split at h
      · rename_i result' hended
        cases h
        exact ⟨call, hcall, hended⟩
      · cases h
    · cases h
  · rintro ⟨call, hcall, hended⟩
    rw [hcall]
    simp only [hended]

theorem calls_setCall_of_ne {c c' : ℕ} (h : c ≠ c') (call : HandshakeCall Seed) :
    (s.setCall c' call).calls c = s.calls c := Function.update_of_ne h _ _

theorem calls_setCall_self (c : ℕ) (call : HandshakeCall Seed) :
    (s.setCall c call).calls c = some call := Function.update_self _ _ _

theorem setCall_setCall (s : AdmissionState Seed) (c : ℕ) (call call' : HandshakeCall Seed) :
    (s.setCall c call).setCall c call' = s.setCall c call' := by
  unfold setCall
  rw [Function.update_idem]

theorem result_of_step {c : ℕ} {result : Except HandshakeError PeerID} {l : AdmissionLabel Seed}
    (hresult : s.result c = some result) (h : s.step identity l = some s') :
    s'.result c = some result := by
  obtain ⟨call, hcall, hended⟩ := result_eq_some.mp hresult
  -- a call that has returned is not the one that takes the step
  have hother : ∀ c' call' stage, s.calls c' = some call' → call'.progress = .raw stage →
      c ≠ c' := by
    rintro c' call' stage hcall' hraw rfl
    cases hcall.symm.trans hcall'
    cases hended.symm.trans hraw
  refine result_eq_some.mpr ?_
  cases step_cases h with
  | @start c' _ _ _ hnone =>
    have hne : c ≠ c' := by
      rintro rfl
      cases hcall.symm.trans hnone
    exact ⟨call, (calls_setCall_of_ne hne _).trans hcall, hended⟩
  | @arrive c' call' bytes hcall' =>
    by_cases hc : c = c'
    · subst hc
      cases hcall.symm.trans hcall'
      exact ⟨_, calls_setCall_self _ _, hended⟩
    · exact ⟨call, (calls_setCall_of_ne hc _).trans hcall, hended⟩
  | raw hcall' hraw _ =>
    exact ⟨call, (calls_setCall_of_ne (hother _ _ _ hcall' hraw) _).trans hcall, hended⟩
  | fails _ hcall' hraw _ _ =>
    exact ⟨call, (calls_setCall_of_ne (hother _ _ _ hcall' hraw) _).trans hcall, hended⟩
  | admitted hcall' hraw _ =>
    exact ⟨call, (calls_setCall_of_ne (hother _ _ _ hcall' hraw) _).trans hcall, hended⟩
  | remove => exact ⟨call, hcall, hended⟩
  | setPing _ => exact ⟨call, hcall, hended⟩

theorem result_of_exec {c : ℕ} {result : Except HandshakeError PeerID}
    {labels : List (AdmissionLabel Seed)} (hresult : s.result c = some result)
    (h : exec (step identity) s labels = some s') : s'.result c = some result :=
  invariant_of_exec (I := fun s => s.result c = some result)
    (fun _ _ _ hs hstep => result_of_step hs hstep) h hresult

/-- **A call returns a peer only when it lets it in.** -/
theorem admitted_of_step (inv : s.Sound identity) {l : AdmissionLabel Seed} {c : ℕ} {n : PeerID}
    (hbefore : s.result c ≠ some (.ok n)) (hafter : s'.result c = some (.ok n))
    (h : s.step identity l = some s') : ∃ call addr body, s.calls c = some call ∧
      (call.endpoint identity).Admits n ∧ s.pool.connections[n]? = none ∧
      call.received.getLast? = some body ∧ crates.fromRawBytes body = .ok (.ehlo { addr }) ∧
      s'.pool = s.pool.insert n
        { addr, writeStream := call.stream, pingNanos := none, readStreamTask := s.next } := by
  obtain ⟨last, hlast, hended⟩ := result_eq_some.mp hafter
  have hfresh : s.calls c ≠ some last := fun hcall =>
    hbefore (result_eq_some.mpr ⟨last, hcall, hended⟩)
  cases step_cases h with
  | start _ =>
    rcases update_eq_cases hlast with ⟨-, heq⟩ | ⟨-, hcall⟩
    · cases heq
      cases hended
    · exact absurd hcall hfresh
  | arrive hcall =>
    rcases update_eq_cases hlast with ⟨rfl, heq⟩ | ⟨-, hcall⟩
    · cases heq
      exact absurd (result_eq_some.mpr ⟨_, hcall, hended⟩) hbefore
    · exact absurd hcall hfresh
  | raw _ _ hraw =>
    rcases update_eq_cases hlast with ⟨-, heq⟩ | ⟨-, hcall⟩
    · cases heq
      obtain ⟨stage, hstage⟩ := HandshakeCall.progress_handshakeRaw hraw
      cases hstage.symm.trans hended
    · exact absurd hcall hfresh
  | fails _ _ _ _ hprogress =>
    rcases update_eq_cases hlast with ⟨-, heq⟩ | ⟨-, hcall⟩
    · cases heq
      exact absurd hended (hprogress n)
    · exact absurd hcall hfresh
  | @admitted c' call m addr aesKey hcall hok habsent =>
    rcases update_eq_cases hlast with ⟨rfl, heq⟩ | ⟨-, hcall⟩
    · cases heq
      cases hended
      obtain ⟨body, hbody, hehlo⟩ := (inv _ _ hcall).ehlo _ _ _ hok
      exact ⟨call, addr, body, hcall, ((inv _ _ hcall).vetted _ hok).1, habsent, hbody, hehlo, rfl⟩
    · exact absurd hcall hfresh
  | remove => exact absurd hlast hfresh
  | setPing _ => exact absurd hlast hfresh

/-- **A step of a call** changes the pool only if the call returns a peer with it. -/
theorem pool_of_call_step {l : AdmissionLabel Seed} {c : ℕ} (hl : l.call? = some c)
    (h : s.step identity l = some s') : s'.pool = s.pool ∨ ∃ n, s'.result c = some (.ok n) := by
  cases step_cases h with
  | start _ => exact Or.inl rfl
  | arrive _ => exact Or.inl rfl
  | raw _ _ _ => exact Or.inl rfl
  | fails _ _ _ _ _ => exact Or.inl rfl
  | @admitted c' call n addr aesKey hcall _ _ =>
    cases hl
    exact Or.inr ⟨n, result_eq_some.mpr ⟨_, Function.update_self _ _ _, rfl⟩⟩
  | remove => cases hl
  | setPing _ => cases hl

/-- **An entry is never replaced**: it stays what it is, but for its ping, or is removed. -/
theorem entry_of_step {l : AdmissionLabel Seed} {n : PeerID} {peer peer' : PeerInfo}
    (hpeer : s.pool.connections[n]? = some peer) (hpeer' : s'.pool.connections[n]? = some peer')
    (h : s.step identity l = some s') : peer' = { peer with pingNanos := peer'.pingNanos } := by
  have hsame : s'.pool = s.pool → peer' = { peer with pingNanos := peer'.pingNanos } := by
    intro hpool
    rw [hpool] at hpeer'
    cases hpeer.symm.trans hpeer'
    rfl
  cases step_cases h with
  | start _ => exact hsame rfl
  | arrive _ => exact hsame rfl
  | raw _ _ _ => exact hsame rfl
  | fails _ _ _ _ _ => exact hsame rfl
  | admitted _ _ habsent =>
    rw [ConnectionPool.getElem?_insert] at hpeer'
    split at hpeer'
    · rename_i heq
      subst heq
      cases habsent.symm.trans hpeer
    · cases hpeer.symm.trans hpeer'
      rfl
  | remove =>
    rw [ConnectionPool.getElem?_remove] at hpeer'
    split at hpeer'
    · cases hpeer'
    · cases hpeer.symm.trans hpeer'
      rfl
  | setPing hold =>
    rw [ConnectionPool.getElem?_insert] at hpeer'
    split at hpeer'
    · rename_i heq
      subst heq
      cases hold.symm.trans hpeer
      cases hpeer'
      rfl
    · cases hpeer.symm.trans hpeer'
      rfl

/-! ### Runs -/

/-- **A handshake is all or nothing on the pool.**  At the step at which it returns a peer,
that is not the node itself, it is the one that was expected, it was not in the pool, and the
pool has one entry more, with the stream of the call and the address of the Ehlo that was read
last.  What returns an error, now or later, changes nothing.  No entry is ever replaced.  And
the key that `AesKey::clone_from_slice` is given has thirty-two bytes. -/
theorem handshake_is_all_or_nothing {labels : List (AdmissionLabel Seed)}
    {l : AdmissionLabel Seed} (h : exec (step identity) (init identity.peerId) labels = some s)
    (hstep : s.step identity l = some s') :
    (∀ c n, s.result c ≠ some (.ok n) → s'.result c = some (.ok n) →
      ∃ call addr body, s.calls c = some call ∧ n ≠ identity.peerId ∧
        (∀ expected, call.expectedPeerId = some expected → n = expected) ∧
        s.pool.connections[n]? = none ∧ call.received.getLast? = some body ∧
        crates.fromRawBytes body = .ok (.ehlo { addr }) ∧
        s'.pool = s.pool.insert n
          { addr, writeStream := call.stream, pingNanos := none, readStreamTask := s.next }) ∧
    (∀ c e later t, l.call? = some c → exec (step identity) s' later = some t →
      t.result c = some (.error e) → s'.pool = s.pool) ∧
    (∀ (n : PeerID) (peer peer' : PeerInfo), s.pool.connections[n]? = some peer →
      s'.pool.connections[n]? = some peer' →
        peer' = { peer with pingNanos := peer'.pingNanos }) ∧
    ∀ c call stage aesKey, s.calls c = some call → call.progress = .raw stage →
      stage.aesKey? = some aesKey → aesKey.length = 32 := by
  have inv : s.Sound identity :=
    invariant_of_exec (fun _ _ _ inv h => inv.step h) h fun c call hcall => by cases hcall
  refine ⟨fun c n hbefore hafter => ?_, fun c e later t hl hlater he => ?_,
    fun n peer peer' hpeer hpeer' => entry_of_step hpeer hpeer' hstep,
    fun c call stage aesKey hcall hraw hkey => ((inv c call hcall).vetted _ hraw).aesKey _ hkey⟩
  · obtain ⟨call, addr, body, hcall, hadmits, habsent, hbody, hehlo, hpool⟩ :=
      admitted_of_step inv hbefore hafter hstep
    exact ⟨call, addr, body, hcall, hadmits.ne, hadmits.expected, habsent, hbody, hehlo, hpool⟩
  · rcases pool_of_call_step hl hstep with hpool | ⟨n, hn⟩
    · exact hpool
    · cases (result_of_exec hn hlater).symm.trans he

/-! ### A handshake that ends well -/

section Course

open Duplex

variable {ends : Ends crates} {k : Side} {c : ℕ} {call : HandshakeCall Seed}

/-- A call that stands at a point of the course, with nothing left to read. -/
structure OnCourse (ends : Ends crates) (k : Side) (call : HandshakeCall Seed) (i : ℕ) :
    Prop where
  endpoint : call.endpoint (ends k).identity = ends k
  progress : call.progress = .raw (courseStage ends k i)
  inbound : call.inbound = []

theorem step_raw {stage : Stage} {event : RawEvent} (hcall : s.calls c = some call)
    (hraw : call.progress = .raw stage) : s.step identity (.raw c event) =
      (call.handshakeRaw identity s.pool stage event).map (s.setCall c) := by
  rw [step, hcall]
  simp only [hraw]

theorem exists_exec_point (course : Course ends) {i : ℕ} (hi : i ≤ 8)
    (hcall : s.calls c = some call) (hon : OnCourse ends k call i)
    (habsent : s.pool.contains (ends k.other).identity.peerId = false) :
    ∃ ls call', exec (step (ends k).identity) s ls = some (s.setCall c call') ∧
      OnCourse ends k call' (i + 1) := by
  have hkind : i = 4 ∨ IsSend i ∨ IsRecv i := by
    unfold IsSend IsRecv
    omega
  rcases hkind with rfl | hsend | hrecv
  · refine ⟨[.raw c .check], call.setStage (courseStage ends k 5), ?_, hon.endpoint, rfl,
      hon.inbound⟩
    rw [exec_singleton, step_raw hcall hon.progress]
    simp only [HandshakeCall.handshakeRaw, hon.endpoint, courseStage_awaits_contains, habsent,
      courseStage_checked, Option.map_some]
  · obtain ⟨body, -, hwrite⟩ := course.writes k i hsend
    refine ⟨[.raw c (.write (.ok ()))], call.setStage (courseStage ends k (i + 1)), ?_,
      hon.endpoint, rfl, hon.inbound⟩
    rw [exec_singleton, step_raw hcall hon.progress]
    simp only [HandshakeCall.handshakeRaw, hon.endpoint, hwrite, courseStage_sent hsend,
      Option.map_some]
  · obtain ⟨body, hbody, hread⟩ := course.reads k i hrecv
    have hshort := course.short k.other body (List.mem_of_getElem? hbody)
    have hparse : parse maxPacketSize (frame body) = .complete body [] := by
      have happend := parse_frame_append (by decide : maxPacketSize ≤ 256 ^ 4) hshort []
      rwa [List.append_nil] at happend
    refine ⟨[.arrive c (frame body), .raw c .read],
      { call with
        inbound := []
        received := call.received ++ [body]
        progress := .raw (courseStage ends k (i + 1)) }, ?_, hon.endpoint, rfl, rfl⟩
    have harrive : s.step (ends k).identity (.arrive c (frame body)) =
        some (s.setCall c { call with inbound := frame body }) := by
      rw [step, hcall, Option.map_some, hon.inbound, List.nil_append]
    have hendpoint : ({ call with inbound := frame body } : HandshakeCall Seed).endpoint
        (ends k).identity = ends k := hon.endpoint
    have hawaits : (courseStage ends k i).awaits
        (({ call with inbound := frame body } : HandshakeCall Seed).endpoint (ends k).identity) =
          .frame := by
      rw [hendpoint]
      exact courseStage_awaits_frame hrecv
    have hprogress : ({ call with inbound := frame body } : HandshakeCall Seed).progress =
        .raw (courseStage ends k i) := hon.progress
    have hraw : ({ call with inbound := frame body } : HandshakeCall Seed).handshakeRaw
        (ends k).identity s.pool (courseStage ends k i) .read = _ :=
      HandshakeCall.handshakeRaw_read hawaits hparse
    rw [hendpoint, hread] at hraw
    rw [exec_cons, harrive, Option.bind_some, exec_singleton,
      step_raw (calls_setCall_self _ _) hprogress]
    refine (congrArg _ hraw).trans ?_
    rw [Option.map_some, setCall_setCall]

theorem exists_exec_end (course : Course ends) (m : ℕ) {i : ℕ} (hm : i + m = 9)
    (hcall : s.calls c = some call) (hon : OnCourse ends k call i)
    (habsent : s.pool.contains (ends k.other).identity.peerId = false) :
    ∃ ls call', exec (step (ends k).identity) s ls = some (s.setCall c call') ∧
      call'.progress = .raw (agreed ends k) := by
  induction m generalizing s call i with
  | zero =>
    obtain rfl : i = 9 := hm
    refine ⟨[], call, congrArg some ?_, hon.progress⟩
    rw [setCall, ← hcall, Function.update_eq_self]
  | succ m ih =>
    obtain ⟨ls, call', hls, hon'⟩ := exists_exec_point course (by omega) hcall hon habsent
    obtain ⟨ms, call'', hms, hend⟩ := ih (s := s.setCall c call') (by omega)
      (calls_setCall_self c call') hon' habsent
    refine ⟨ls ++ ms, call'', ?_, hend⟩
    rw [exec_append_of hls, hms, setCall_setCall]

/-- **A node that dials another honest node lets it in.** -/
theorem exists_exec_admitted (course : Course ends) :
    ∃ labels s s', exec (step (ends k).identity) (init (ends k).identity.peerId) labels = some s ∧
      s.step (ends k).identity (.insert 0) = some s' ∧ s.result 0 = none ∧
      s'.result 0 = some (.ok (ends k.other).identity.peerId) := by
  have habsent : (ConnectionPool.new (ends k).identity.peerId).contains
      (ends k.other).identity.peerId = false := by
    rw [ConnectionPool.contains_eq_isSome]
    simp [ConnectionPool.new]
  have hstart : (init (ends k).identity.peerId).step (ends k).identity
      (.start 0 0 (ends k).expectedPeerId (ends k).draws) = some ((init _).setCall 0
        ⟨0, (ends k).expectedPeerId, (ends k).draws, [], [], .raw .sendVersion⟩) := rfl
  obtain ⟨ls, call, hls, hend⟩ := exists_exec_end (c := 0) course 9 (i := 0) rfl
    (calls_setCall_self (s := init (ends k).identity.peerId) 0
      ⟨0, (ends k).expectedPeerId, (ends k).draws, [], [], .raw .sendVersion⟩)
    ⟨rfl, rfl, rfl⟩ habsent
  rw [setCall_setCall] at hls
  let s₁ : AdmissionState Seed := (init (ends k).identity.peerId).setCall 0 call
  have hcall : s₁.calls 0 = some call := calls_setCall_self 0 call
  have hinsert : s₁.step (ends k).identity (.insert 0) = some (s₁.insert crates.toCodec 0 call
      (ends k.other).identity.peerId (ends k.other).identity.addr) := by
    rw [step, hcall]
    simp only [hend, agreed]
  refine ⟨_ :: ls, s₁, _, exec_cons_eq_some.mpr ⟨_, hstart, hls⟩, hinsert, ?_, ?_⟩
  · rw [result, hcall]
    simp only [hend]
  · rw [insert, if_neg (by rw [show s₁.pool.contains _ = false from habsent]; decide)]
    exact result_eq_some.mpr ⟨_, calls_setCall_self (s := s₁) 0 _, rfl⟩

end Course

/-- One of the pair of nodes dials the other. -/
theorem handshake_is_all_or_nothing_pair : ∃ labels, ∃ s s' : AdmissionState Unit,
    exec (step (pairEnds pairPackets .left).identity)
        (init (pairEnds pairPackets .left).identity.peerId) labels = some s ∧
      s.step (pairEnds pairPackets .left).identity (.insert 0) = some s' ∧
      ∃ call addr, s.calls 0 = some call ∧
        s'.pool = s.pool.insert (pairEnds pairPackets .right).identity.peerId
          ⟨addr, call.stream, none, s.next⟩ := by
  obtain ⟨course⟩ := exists_course (pair_reliable (fun _ h => h) (by decide))
    (pair_distinct pairPackets)
  obtain ⟨labels, s, s', hs, hinsert, hbefore, hafter⟩ :=
    exists_exec_admitted (k := .left) course
  obtain ⟨call, addr, body, hcall, -, -, -, -, -, hpool⟩ :=
    (handshake_is_all_or_nothing hs hinsert).1 0 _ (by rw [hbefore]; rintro ⟨⟩) hafter
  exact ⟨labels, s, s', hs, hinsert, call, addr, hcall, hpool⟩

end AdmissionState

end Tewta
