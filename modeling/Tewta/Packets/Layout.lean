import Tewta.Packets

/-!
# The length of an encoded packet

The `protocol` crate encodes the fields of a structure one after the other, an
integer by its width, an enumeration as a discriminant and the variant, and a
string or a vector as its length and its contents.  `Layout.size` is how many
bytes that makes of a packet; the bytes of a length, of the discriminant of each
variant and of the mark of an `Option` are parameters.  `Layout.derived` is what
the crate derives, whose discriminant is the name of the variant.
-/

namespace Tewta

def Packet.variantName : Packet → String
  | .protocolVersion _ => "ProtocolVersion"
  | .initRsa _ => "InitRsa"
  | .initAes _ => "InitAes"
  | .ehlo _ => "Ehlo"
  | .discoverPeers _ => "DiscoverPeers"
  | .discoverPeersResp _ => "DiscoverPeersResp"
  | .findDhtValue _ => "FindDhtValue"
  | .findDhtValueResp _ => "FindDhtValueResp"
  | .findPeer _ => "FindPeer"
  | .findPeerResp _ => "FindPeerResp"
  | .storeDhtValue _ => "StoreDhtValue"
  | .ping _ => "Ping"
  | .pong _ => "Pong"
  | .quit _ => "Quit"

/-- The bytes of a length, of the discriminant of a variant, by its name, and of
the mark of an `Option`. -/
structure Layout where
  lengthPrefix : ℕ
  discriminant : String → ℕ
  optionMark : ℕ

namespace Layout

variable (layout : Layout)

def ofVec {T : Type} (size : T → ℕ) (values : List T) : ℕ :=
  layout.lengthPrefix + (values.map size).sum

def ofBytes (bytes : Bytes) : ℕ := layout.lengthPrefix + bytes.length

def ofString (s : String) : ℕ := layout.lengthPrefix + s.utf8ByteSize

def ofOption {T : Type} (size : T → ℕ) : Option T → ℕ
  | none => layout.optionMark
  | some value => layout.optionMark + size value

/-- A peer with its address: the id is thirty-two bytes without a length. -/
def ofPeer (peer : PeerID × String) : ℕ := 32 + layout.ofString peer.2

def ofSignedData {T : Type} (size : T → ℕ) (data : SignedData T) : ℕ :=
  size data.data + layout.ofBytes data.rsaPublicKeyExponent +
    layout.ofBytes data.rsaPublicKeyModulus + layout.ofBytes data.signature

def ofDescriptor (desc : AccountSnapshotDescriptor) : ℕ := 8 + layout.ofBytes desc.hash

def ofDhtValue (value : DhtValue) : ℕ :=
  layout.ofOption layout.ofString value.cachedAddr +
    layout.ofSignedData layout.ofDescriptor value.accountSnapshotDesc

def ofDhtLookupResult : DhtLookupResult → ℕ
  | .found values => layout.discriminant "Found" + layout.ofVec layout.ofDhtValue values
  | .notFound peers => layout.discriminant "NotFound" + layout.ofVec layout.ofPeer peers

/-- The fields of a packet. -/
def ofFields : Packet → ℕ
  | .protocolVersion p =>
    layout.ofString p.protocol + layout.ofVec (fun _ => 12) p.supportedVersions
  | .initRsa p =>
    layout.ofBytes p.rsaPublicKeyExponent + layout.ofBytes p.rsaPublicKeyModulus +
      layout.ofBytes p.nonce
  | .initAes p => layout.ofBytes p.aesKeyPart + layout.ofBytes p.nonce
  | .ehlo p => layout.ofString p.addr
  | .discoverPeers p => 4 + 32 + layout.ofBytes p.mask + 2
  | .discoverPeersResp p => 4 + layout.ofVec layout.ofPeer p.peers
  | .findDhtValue _ => 4 + 32 + 2 + 2
  | .findDhtValueResp p => 4 + layout.ofDhtLookupResult p.result
  | .findPeer _ => 4 + 32 + 2
  | .findPeerResp p => 4 + layout.ofVec layout.ofPeer p.peers
  | .storeDhtValue p => 32 + layout.ofSignedData layout.ofDhtValue p.value
  | .ping _ => 4
  | .pong _ => 4
  | .quit p => layout.ofString p.reasonCode + layout.ofOption layout.ofString p.message + 1

/-- The bytes of an encoded packet. -/
def size (p : Packet) : ℕ := layout.discriminant p.variantName + layout.ofFields p

/-- What `Protocol` derives: the discriminant is a string, and a length has four
bytes. -/
def derived : Layout where
  lengthPrefix := 4
  discriminant name := 4 + name.utf8ByteSize
  optionMark := 1

theorem derived_discriminant_pos (name : String) : 0 < derived.discriminant name :=
  Nat.lt_of_lt_of_le (by decide) (Nat.le_add_right 4 _)

example : derived.size (.ping { pingId := 0 }) = 12 := by decide

theorem ofVec_perm {T : Type} (size : T → ℕ) {values values' : List T}
    (h : values.Perm values') : layout.ofVec size values = layout.ofVec size values' := by
  rw [ofVec, ofVec, (h.map size).sum_eq]

theorem ofVec_append_le {T : Type} (size : T → ℕ) (values values' : List T) :
    layout.ofVec size values ≤ layout.ofVec size (values ++ values') := by
  rw [ofVec, ofVec, List.map_append, List.sum_append]
  omega

end Layout

/-- What a codec that follows a layout makes of a packet has the packet's length. -/
def Codec.Follows (codec : Codec Bytes) (layout : Layout) : Prop :=
  ∀ p body, codec.rawBytes p = .ok body → body.length = layout.size p

/-- A codec for a list of packets: the place of a packet in the list, and zeros up
to its length. -/
def paddedCodec (layout : Layout) (packets : List Packet) : Codec Bytes where
  rawBytes p :=
    if p ∈ packets then
      .ok (UInt8.ofNat (packets.idxOf p) :: List.replicate (layout.size p - 1) 0)
    else .error ⟨"unknown packet"⟩
  fromRawBytes body :=
    match body with
    | i :: _ =>
      match packets[i.toNat]? with
      | some p => .ok p
      | none => .error ⟨"unknown discriminant"⟩
    | [] => .error ⟨"unexpected end"⟩

section Padded

variable {layout : Layout} {packets : List Packet} {p : Packet} {body : Bytes}

theorem paddedCodec_rawBytes (h : (paddedCodec layout packets).rawBytes p = .ok body) :
    p ∈ packets ∧ body = UInt8.ofNat (packets.idxOf p) :: List.replicate (layout.size p - 1) 0 := by
  simp only [paddedCodec] at h
  split at h
  · rename_i hmem
    cases h
    exact ⟨hmem, rfl⟩
  · cases h

theorem paddedCodec_decodes (hlen : packets.length ≤ 256)
    (h : (paddedCodec layout packets).rawBytes p = .ok body) :
    (paddedCodec layout packets).fromRawBytes body = .ok p := by
  obtain ⟨hmem, rfl⟩ := paddedCodec_rawBytes h
  have hidx := List.idxOf_lt_length_of_mem hmem
  have hi : (UInt8.ofNat (packets.idxOf p)).toNat = packets.idxOf p := by
    rw [ByteString.toNat_ofNat, Nat.mod_eq_of_lt (by omega)]
  simp [paddedCodec, hi, hidx]

theorem paddedCodec_follows (hpos : ∀ name, 0 < layout.discriminant name) :
    (paddedCodec layout packets).Follows layout := by
  intro p body h
  obtain ⟨-, rfl⟩ := paddedCodec_rawBytes h
  have hname := hpos p.variantName
  rw [List.length_cons, List.length_replicate, Layout.size]
  omega

end Padded

end Tewta
