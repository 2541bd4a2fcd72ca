import Tewta.Peers

/-!
# Packets

The fourteen kinds of packet and what each carries.  A `Vec<u8>` is `Bytes`, a
`u32`, `u16` or `u64` is the type of that width, a `Vec` is a list.

`Codec` is the part of the `protocol` crate the node calls: `raw_bytes` and
`from_raw_bytes`, either of which may fail.  What a byte string is stays a
parameter, since the handshake is also run over symbolic frames.

The last section is the module `constants` of `lib.rs`.
-/

namespace Tewta

/-- An error value of a crate the node is built on, kept as its text. -/
structure ExternalError where
  text : String
  deriving DecidableEq

structure ProtocolVersionPacket where
  protocol : String
  supportedVersions : List (UInt32 × UInt32 × UInt32)
  deriving DecidableEq

structure InitRsaPacket where
  rsaPublicKeyExponent : Bytes
  rsaPublicKeyModulus : Bytes
  nonce : Bytes
  deriving DecidableEq

structure InitAesPacket where
  aesKeyPart : Bytes
  nonce : Bytes
  deriving DecidableEq

structure EhloPacket where
  addr : String
  deriving DecidableEq

structure DiscoverPeersPacket where
  requestId : UInt32
  target : PeerID
  mask : Bytes
  limit : UInt16
  deriving DecidableEq

structure DiscoverPeersRespPacket where
  requestId : UInt32
  peers : List (PeerID × String)
  deriving DecidableEq

structure AccountSnapshotDescriptor where
  timestamp : UInt64
  hash : Bytes
  deriving DecidableEq

structure SignedData (T : Type) where
  data : T
  rsaPublicKeyExponent : Bytes
  rsaPublicKeyModulus : Bytes
  signature : Bytes
  deriving DecidableEq

structure DhtValue where
  cachedAddr : Option String
  accountSnapshotDesc : SignedData AccountSnapshotDescriptor
  deriving DecidableEq

structure FindDhtValuePacket where
  requestId : UInt32
  key : KeyID
  limitPeers : UInt16
  limitValues : UInt16
  deriving DecidableEq

inductive DhtLookupResult
  | found (values : List DhtValue)
  | notFound (peers : List (PeerID × String))
  deriving DecidableEq

structure FindDhtValueRespPacket where
  requestId : UInt32
  result : DhtLookupResult
  deriving DecidableEq

structure FindPeerPacket where
  requestId : UInt32
  peerId : PeerID
  limit : UInt16
  deriving DecidableEq

structure FindPeerRespPacket where
  requestId : UInt32
  peers : List (PeerID × String)
  deriving DecidableEq

structure StoreDhtValuePacket where
  keyId : KeyID
  value : SignedData DhtValue
  deriving DecidableEq

structure PingPacket where
  pingId : UInt32
  deriving DecidableEq

structure QuitPacket where
  reasonCode : String
  message : Option String
  reportFault : Bool
  deriving DecidableEq

inductive Packet
  | protocolVersion (p : ProtocolVersionPacket)
  | initRsa (p : InitRsaPacket)
  | initAes (p : InitAesPacket)
  | ehlo (p : EhloPacket)
  | discoverPeers (p : DiscoverPeersPacket)
  | discoverPeersResp (p : DiscoverPeersRespPacket)
  | findDhtValue (p : FindDhtValuePacket)
  | findDhtValueResp (p : FindDhtValueRespPacket)
  | findPeer (p : FindPeerPacket)
  | findPeerResp (p : FindPeerRespPacket)
  | storeDhtValue (p : StoreDhtValuePacket)
  | ping (p : PingPacket)
  | pong (p : PingPacket)
  | quit (p : QuitPacket)
  deriving DecidableEq

/-- `raw_bytes` and `from_raw_bytes` of the `protocol` crate, at type `Packet`. -/
structure Codec (Body : Type) where
  rawBytes : Packet → Except ExternalError Body
  fromRawBytes : Body → Except ExternalError Packet

/-- A codec for a list of packets, each encoded as its place in the list. -/
def listCodec (packets : List Packet) : Codec Bytes where
  rawBytes p :=
    if p ∈ packets then .ok [UInt8.ofNat (packets.idxOf p)] else .error ⟨"unknown packet"⟩
  fromRawBytes body :=
    match body with
    | [i] =>
      match packets[i.toNat]? with
      | some p => .ok p
      | none => .error ⟨"unknown discriminant"⟩
    | _ => .error ⟨"unexpected length"⟩

theorem listCodec_decodes {packets : List Packet} (hlen : packets.length ≤ 256) {p : Packet}
    {body : Bytes} (h : (listCodec packets).rawBytes p = .ok body) :
    (listCodec packets).fromRawBytes body = .ok p := by
  simp only [listCodec] at h
  split at h
  · rename_i hmem
    cases h
    have hidx := List.idxOf_lt_length_of_mem hmem
    have hi : (UInt8.ofNat (packets.idxOf p)).toNat = packets.idxOf p := by
      rw [ByteString.toNat_ofNat, Nat.mod_eq_of_lt (by omega)]
    simp [listCodec, hi, hidx]
  · cases h

/-! ### Constants -/

def protocolVersion : UInt32 × UInt32 × UInt32 := (0, 0, 1)

def maxPacketSize : ℕ := 1000000

theorem maxPacketSize_le : maxPacketSize ≤ 256 ^ 4 := by decide

def maxDiscoveryPeersReturned : UInt16 := 64

def maxDhtValuesReturned : UInt16 := 64

def maxDhtPeersReturned : UInt16 := 32

end Tewta
