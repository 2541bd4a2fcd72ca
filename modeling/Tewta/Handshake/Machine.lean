import Tewta.Packets
import Tewta.Peers.KeyId

/-!
# The handshake as a machine

`handshake_raw` as the stages between its suspension points: four times it
writes a frame and reads one, and once in between it asks the pool whether it
knows the other peer.  `Stage.awaits` is what the function waits for at a stage,
`Stage.sent`, `Stage.received`, `Stage.checked` and `Stage.failed` are what it
does when it gets it.

What the `protocol` and `rsa` crates compute is `Crates`, a parameter.  The
bodies of frames are a parameter as well: bytes in the modules on streams, terms
in the module on the attacker.
-/

namespace Tewta

open ByteString PeerID

/-! ### Errors -/

inductive HandshakeError
  | unsupportedVersion
  | unexpectedPacket
  | invalidAesKeyLenght
  | invalidNonce
  | invalidNonceCopy
  | packetTooLarge
  | alreadyConnected
  | samePeer
  | identityMismatch
  | peerQuitted (p : QuitPacket)
  | protocolError (e : ExternalError)
  | rsaError (e : ExternalError)
  | ioError (e : ExternalError)
  | streamReunitionFailure (e : ExternalError)
  deriving DecidableEq

namespace HandshakeError

/-- `ToQuit::reason_code`. -/
def reasonCode : HandshakeError → String
  | unsupportedVersion => "HandshakeError::UnsupportedVersion"
  | unexpectedPacket => "HandshakeError::UnexpectedPacket"
  | invalidAesKeyLenght => "HandshakeError::InvalidAesKeyLenght"
  | invalidNonce => "HandshakeError::InvalidNonce"
  | invalidNonceCopy => "HandshakeError::InvalidNonceCopy"
  | packetTooLarge => "HandshakeError::PacketTooLarge"
  | alreadyConnected => "HandshakeError::AlreadyConnected"
  | samePeer => "HandshakeError::SamePeer"
  | identityMismatch => "HandshakeError::IdentityMismatch"
  | peerQuitted _ => "HandshakeError::PeerQuitted"
  | protocolError _ => "HandshakeError::ProtocolError"
  | rsaError _ => "HandshakeError::RsaError"
  | ioError _ => "HandshakeError::IoError"
  | streamReunitionFailure _ => "HandshakeError::StreamReunitionFailure"

/-- `ToQuit::report_fault`. -/
def reportFault : HandshakeError → Bool
  | unexpectedPacket => true
  | invalidNonce => true
  | invalidNonceCopy => true
  | protocolError _ => true
  | _ => false

/-- `ToQuit::to_quit`; `message` is always `None`. -/
def toQuit (e : HandshakeError) : QuitPacket :=
  { reasonCode := e.reasonCode, message := none, reportFault := e.reportFault }

end HandshakeError

/-! ### What the machine is given -/

/-- What the node calls of the crates it is built on. -/
structure Crates (Body PrivateKey Seed : Type) extends Codec Body where
  sha256 : Bytes → Bytes32
  /-- `RsaPublicKey::new`, of a modulus and an exponent. -/
  newRsaPublicKey : ℕ → ℕ → Except ExternalError RsaPublicKey
  /-- `RsaPublicKey::encrypt`, with the randomness the padding takes. -/
  encrypt : RsaPublicKey → Seed → Body → Except ExternalError Body
  /-- `RsaPrivateKey::decrypt`. -/
  decrypt : PrivateKey → Body → Except ExternalError Body

variable {Body PrivateKey Seed : Type}

/-- The fields of `Node` that `Node::new` sets for good. -/
structure Identity (crates : Crates Body PrivateKey Seed) where
  rsaPrivateKey : PrivateKey
  rsaPublicKey : RsaPublicKey
  peerId : PeerID
  addr : String
  peerId_eq : peerId = fromRsaPublicKey crates.sha256 rsaPublicKey

/-- What one call of `handshake_raw` draws from `OsRng`. -/
structure Draws (Seed : Type) where
  nonce : Bytes
  aesKeyPart : Bytes
  seed : Seed
  nonce_length : nonce.length = 16
  aesKeyPart_length : aesKeyPart.length = 16

/-- One call of `handshake_raw`. -/
structure Endpoint (crates : Crates Body PrivateKey Seed) where
  identity : Identity crates
  expectedPeerId : Option PeerID
  draws : Draws Seed

/-! ### Stages -/

/-- Where a call of `handshake_raw` stands, with the variables that are still
needed from there on. -/
inductive Stage
  | sendVersion
  | recvVersion
  | sendRsa
  | recvRsa
  | checkPool (theirPublicKey : RsaPublicKey) (theirNonce : Bytes)
  | sendAes (theirPublicKey : RsaPublicKey) (theirNonce : Bytes)
  | recvAes (theirPublicKey : RsaPublicKey)
  | sendEhlo (theirPeerId : PeerID) (aesKey : Bytes)
  | recvEhlo (theirPeerId : PeerID) (aesKey : Bytes)
  | ok (theirPeerId : PeerID) (addr : String) (aesKey : Bytes)
  | err (e : HandshakeError)
  deriving DecidableEq

/-- What is waited for at a stage: that a frame is written, that one arrives, that
the pool says whether it contains a peer, or nothing any more. -/
inductive Awaits (Body : Type)
  | write (body : Except HandshakeError Body)
  | frame
  | contains (peerId : PeerID)
  | returned

/-- The order in which the two parts make the AES key: that of the lower peer id
comes first. -/
def concatAesKeyParts (ourPeerId theirPeerId : PeerID) (ourPart theirPart : Bytes) :
    Except HandshakeError Bytes :=
  match compare ourPeerId theirPeerId with
  | .lt => .ok (ourPart ++ theirPart)
  | .gt => .ok (theirPart ++ ourPart)
  | .eq => .error .samePeer

section Packets

variable {crates : Crates Body PrivateKey Seed}

def versionPacket : Packet :=
  .protocolVersion { protocol := "tewta", supportedVersions := [protocolVersion] }

def Endpoint.rsaPacket (ep : Endpoint crates) : Packet :=
  .initRsa
    { rsaPublicKeyExponent := leMin ep.identity.rsaPublicKey.e
      rsaPublicKeyModulus := leMin ep.identity.rsaPublicKey.n
      nonce := ep.draws.nonce }

def Endpoint.aesPacket (ep : Endpoint crates) (theirNonce : Bytes) : Packet :=
  .initAes { aesKeyPart := ep.draws.aesKeyPart, nonce := theirNonce }

def Endpoint.ehloPacket (ep : Endpoint crates) : Packet := .ehlo { addr := ep.identity.addr }

end Packets

section Machine

variable (crates : Crates Body PrivateKey Seed)

/-- `raw_bytes` under the `?` of a handshake. -/
def encode (p : Packet) : Except HandshakeError Body :=
  match crates.rawBytes p with
  | .ok body => .ok body
  | .error e => .error (.protocolError e)

/-- `raw_bytes`, then `encrypt`. -/
def encryptedFor (theirPublicKey : RsaPublicKey) (seed : Seed) (p : Packet) :
    Except HandshakeError Body :=
  match crates.rawBytes p with
  | .error e => .error (.protocolError e)
  | .ok body =>
    match crates.encrypt theirPublicKey seed body with
    | .ok body => .ok body
    | .error e => .error (.rsaError e)

variable {crates} (ep : Endpoint crates)

/-- What `handshake_raw` waits for at a stage. -/
def Stage.awaits : Stage → Awaits Body
  | .sendVersion => .write (encode crates versionPacket)
  | .recvVersion => .frame
  | .sendRsa => .write (encode crates ep.rsaPacket)
  | .recvRsa => .frame
  | .checkPool theirPublicKey _ => .contains (fromRsaPublicKey crates.sha256 theirPublicKey)
  | .sendAes theirPublicKey theirNonce =>
    .write (encryptedFor crates theirPublicKey ep.draws.seed (ep.aesPacket theirNonce))
  | .recvAes _ => .frame
  | .sendEhlo _ _ => .write (encode crates ep.ehloPacket)
  | .recvEhlo _ _ => .frame
  | .ok _ _ _ => .returned
  | .err _ => .returned

/-- The stage after the frame of a stage is written. -/
def Stage.sent : Stage → Stage
  | .sendVersion => .recvVersion
  | .sendRsa => .recvRsa
  | .sendAes theirPublicKey _ => .recvAes theirPublicKey
  | .sendEhlo theirPeerId aesKey => .recvEhlo theirPeerId aesKey
  | stage => stage

/-- The stage after the pool has answered. -/
def Stage.checked (contains : Bool) : Stage → Stage
  | .checkPool theirPublicKey theirNonce =>
    if contains then .err .alreadyConnected else .sendAes theirPublicKey theirNonce
  | stage => stage

/-- The stage after an error in reading or writing. -/
def Stage.failed (e : HandshakeError) : Stage → Stage
  | .ok theirPeerId addr aesKey => .ok theirPeerId addr aesKey
  | .err e' => .err e'
  | _ => .err e

/-- The packet with the protocol version. -/
def receivedVersion : Packet → Stage
  | .protocolVersion p =>
    if protocolVersion ∈ p.supportedVersions then .sendRsa else .err .unsupportedVersion
  | .quit p => .err (.peerQuitted p)
  | _ => .err .unexpectedPacket

/-- The identity checks that need no lock. -/
def checkIdentity (theirPublicKey : RsaPublicKey) (theirNonce : Bytes) : Stage :=
  let theirPeerId := fromRsaPublicKey crates.sha256 theirPublicKey
  if ep.identity.peerId = theirPeerId then .err .samePeer
  else
    match ep.expectedPeerId with
    | some expectedPeerId =>
      if expectedPeerId ≠ theirPeerId then .err .identityMismatch
      else .checkPool theirPublicKey theirNonce
    | none => .checkPool theirPublicKey theirNonce

/-- The packet with the public key. -/
def receivedRsa : Packet → Stage
  | .initRsa p =>
    let n := ofLe p.rsaPublicKeyModulus
    let e := ofLe p.rsaPublicKeyExponent
    if p.nonce.length ≠ 16 then .err .invalidNonce
    else
      match crates.newRsaPublicKey n e with
      | .ok theirPublicKey => checkIdentity ep theirPublicKey p.nonce
      | .error e => .err (.rsaError e)
  | .quit p => .err (.peerQuitted p)
  | _ => .err .unexpectedPacket

/-- The packet with the AES key part.  `AesKey::clone_from_slice` takes the
concatenation as it is: two parts of sixteen bytes are the length it asks for. -/
def receivedAes (theirPublicKey : RsaPublicKey) : Packet → Stage
  | .initAes p =>
    if p.aesKeyPart.length ≠ 16 then .err .invalidAesKeyLenght
    else if p.nonce ≠ ep.draws.nonce then .err .invalidNonceCopy
    else
      let theirPeerId := fromRsaPublicKey crates.sha256 theirPublicKey
      match concatAesKeyParts ep.identity.peerId theirPeerId ep.draws.aesKeyPart p.aesKeyPart with
      | .ok aesKey => .sendEhlo theirPeerId aesKey
      | .error e => .err e
  | .quit p => .err (.peerQuitted p)
  | _ => .err .unexpectedPacket

/-- The packet with the address. -/
def receivedEhlo (theirPeerId : PeerID) (aesKey : Bytes) : Packet → Stage
  | .ehlo p => .ok theirPeerId p.addr aesKey
  | .quit p => .err (.peerQuitted p)
  | _ => .err .unexpectedPacket

/-- `from_raw_bytes` under the `?` of a handshake, and what follows. -/
def decoded (crates : Crates Body PrivateKey Seed) (next : Packet → Stage) (body : Body) : Stage :=
  match crates.fromRawBytes body with
  | .ok p => next p
  | .error e => .err (.protocolError e)

/-- The stage after a frame has arrived. -/
def Stage.received (body : Body) : Stage → Stage
  | .recvVersion => decoded crates receivedVersion body
  | .recvRsa => decoded crates (receivedRsa ep) body
  | .recvAes theirPublicKey =>
    match crates.decrypt ep.identity.rsaPrivateKey body with
    | .ok body => decoded crates (receivedAes ep theirPublicKey) body
    | .error e => .err (.rsaError e)
  | .recvEhlo theirPeerId aesKey => decoded crates (receivedEhlo theirPeerId aesKey) body
  | stage => stage

/-! ### What a packet can lead to -/

theorem receivedVersion_versionPacket : receivedVersion versionPacket = .sendRsa := by
  have hversion : protocolVersion ∈ [protocolVersion] := List.mem_singleton_self protocolVersion
  simp only [versionPacket, receivedVersion, if_pos hversion]

theorem receivedVersion_cases (p : Packet) :
    receivedVersion p = .sendRsa ∨ ∃ e, receivedVersion p = .err e := by
  cases p with
  | protocolVersion p =>
    rw [receivedVersion]
    split
    · exact Or.inl rfl
    · exact Or.inr ⟨_, rfl⟩
  | quit p => exact Or.inr ⟨_, rfl⟩
  | _ => exact Or.inr ⟨_, rfl⟩

theorem checkIdentity_cases (theirPublicKey : RsaPublicKey) (theirNonce : Bytes) :
    (fromRsaPublicKey crates.sha256 theirPublicKey ≠ ep.identity.peerId ∧
      (∀ expected, ep.expectedPeerId = some expected →
        fromRsaPublicKey crates.sha256 theirPublicKey = expected) ∧
      checkIdentity ep theirPublicKey theirNonce = .checkPool theirPublicKey theirNonce) ∨
    ∃ e, checkIdentity ep theirPublicKey theirNonce = .err e := by
  rw [checkIdentity]
  split
  · exact Or.inr ⟨_, rfl⟩
  · rename_i hne
    split
    · rename_i expected hexp
      split
      · exact Or.inr ⟨_, rfl⟩
      · rename_i heq
        refine Or.inl ⟨Ne.symm hne, fun other hother => ?_, rfl⟩
        rw [hexp] at hother
        cases hother
        exact (not_not.mp heq).symm
    · rename_i hexp
      exact Or.inl ⟨Ne.symm hne, fun other hother => (by rw [hexp] at hother; cases hother), rfl⟩

theorem receivedRsa_cases (p : Packet) :
    (∃ q theirPublicKey, p = .initRsa q ∧ q.nonce.length = 16 ∧
      crates.newRsaPublicKey (ofLe q.rsaPublicKeyModulus) (ofLe q.rsaPublicKeyExponent) =
        .ok theirPublicKey ∧
      fromRsaPublicKey crates.sha256 theirPublicKey ≠ ep.identity.peerId ∧
      (∀ expected, ep.expectedPeerId = some expected →
        fromRsaPublicKey crates.sha256 theirPublicKey = expected) ∧
      receivedRsa ep p = .checkPool theirPublicKey q.nonce) ∨
    ∃ e, receivedRsa ep p = .err e := by
  cases p with
  | initRsa q =>
    simp only [receivedRsa]
    split
    · exact Or.inr ⟨_, rfl⟩
    · rename_i hlen
      cases hkey : crates.newRsaPublicKey (ofLe q.rsaPublicKeyModulus)
          (ofLe q.rsaPublicKeyExponent) with
      | error e => exact Or.inr ⟨_, rfl⟩
      | ok theirPublicKey =>
        rcases checkIdentity_cases ep theirPublicKey q.nonce with ⟨hne, hexp, heq⟩ | ⟨e, heq⟩
        · exact Or.inl ⟨q, theirPublicKey, rfl, not_not.mp hlen, hkey, hne, hexp, heq⟩
        · exact Or.inr ⟨e, heq⟩
  | quit p => exact Or.inr ⟨_, rfl⟩
  | _ => exact Or.inr ⟨_, rfl⟩

theorem receivedAes_cases (theirPublicKey : RsaPublicKey) (p : Packet) :
    (∃ q aesKey, p = .initAes q ∧ q.aesKeyPart.length = 16 ∧ q.nonce = ep.draws.nonce ∧
      concatAesKeyParts ep.identity.peerId (fromRsaPublicKey crates.sha256 theirPublicKey)
        ep.draws.aesKeyPart q.aesKeyPart = .ok aesKey ∧
      receivedAes ep theirPublicKey p =
        .sendEhlo (fromRsaPublicKey crates.sha256 theirPublicKey) aesKey) ∨
    ∃ e, receivedAes ep theirPublicKey p = .err e := by
  cases p with
  | initAes q =>
    simp only [receivedAes]
    split
    · exact Or.inr ⟨_, rfl⟩
    · rename_i hlen
      split
      · exact Or.inr ⟨_, rfl⟩
      · rename_i hnonce
        cases hkey : concatAesKeyParts ep.identity.peerId
            (fromRsaPublicKey crates.sha256 theirPublicKey) ep.draws.aesKeyPart q.aesKeyPart with
        | error e => exact Or.inr ⟨_, rfl⟩
        | ok aesKey =>
          exact Or.inl ⟨q, aesKey, rfl, not_not.mp hlen, not_not.mp hnonce, hkey, rfl⟩
  | quit p => exact Or.inr ⟨_, rfl⟩
  | _ => exact Or.inr ⟨_, rfl⟩

theorem receivedEhlo_cases (theirPeerId : PeerID) (aesKey : Bytes) (p : Packet) :
    (∃ q, p = .ehlo q ∧ receivedEhlo theirPeerId aesKey p = .ok theirPeerId q.addr aesKey) ∨
    ∃ e, receivedEhlo theirPeerId aesKey p = .err e := by
  cases p with
  | ehlo q => exact Or.inl ⟨q, rfl, rfl⟩
  | quit p => exact Or.inr ⟨_, rfl⟩
  | _ => exact Or.inr ⟨_, rfl⟩

end Machine

end Tewta
