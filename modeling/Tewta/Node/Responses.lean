import Tewta.Handshake.Agreement
import Tewta.Lib.Framing
import Tewta.Node.Joining
import Tewta.Packets.Layout

/-!
# Responses that can be read

The responses of `on_packet` list peers with their addresses, or values.  Their
number is bounded where they are sent, the bytes of the frame where they are read,
and nothing bounds an address but the frame of the Ehlo it came in.

`response_fits_iff_roomy` says when every response to a request can be read, in
terms of the pool, the store and the request.  `one_peer_is_too_long` is a pool
that a node can reach with one peer, whose own address in a response makes it too
large for that peer to read.
-/

namespace Tewta

open ConnectionPool Duplex Framing NodeState PeerID Transition

/-- What `on_packet` passes to `send_packet` on a request. -/
def responseTo (pool : ConnectionPool) (dht : DhtStore) (shuffle : Shuffle) (p : Packet) :
    Option Packet :=
  match onPacket pool dht shuffle p with
  | some (.reply response _, _) => some response
  | some (.listPeers p, _) => some (notFoundResponse pool p)
  | _ => none

theorem responseTo_of_notifyIf {pool : ConnectionPool} {dht dht' : DhtStore} {shuffle : Shuffle}
    {p p' : Packet} {short : Bool}
    (h : onPacket pool dht shuffle p = some (notifyIf short p', dht')) :
    responseTo pool dht shuffle p = none := by
  cases short <;> simp only [responseTo, h, notifyIf] <;> rfl

/-- The responses to a request for values hold whatever the shuffle, those to a
request for peers whatever of the matching peers it leaves. -/
def Roomy (layout : Layout) (pool : ConnectionPool) (dht : DhtStore) : Packet → Prop
  | .discoverPeers p => ∀ h : p.mask.length ≤ 32, ∀ peers : List (PeerID × String),
      peers.Subperm (pool.matchingPeers p.target ⟨p.mask, h⟩) →
      peers.length ≤ (min p.limit maxDiscoveryPeersReturned).toNat →
      layout.discriminant "DiscoverPeersResp" + 4 + layout.ofVec layout.ofPeer peers < maxPacketSize
  | .findDhtValue p =>
    match (dht.get p.key).1 with
    | some values =>
      layout.discriminant "FindDhtValueResp" + 4 + layout.discriminant "Found" +
        layout.ofVec layout.ofDhtValue
          (values.take (min maxDhtValuesReturned p.limitValues).toNat) < maxPacketSize
    | none =>
      layout.discriminant "FindDhtValueResp" + 4 + layout.discriminant "NotFound" +
        layout.ofVec layout.ofPeer (nearestPeers pool p.key p.limitPeers) < maxPacketSize
  | .findPeer p =>
    layout.discriminant "FindPeerResp" + 4 +
      layout.ofVec layout.ofPeer (nearestPeers pool p.peerId p.limit) < maxPacketSize
  | .ping _ => layout.discriminant "Pong" + 4 < maxPacketSize
  | _ => True

/-! ### What the last loop of a discovery leaves -/

section RemoveMiddle

variable {T : Type}

theorem removeMiddle_sublist (maxLen : ℕ) (peers : List T) :
    (removeMiddle maxLen peers).Sublist peers := by
  induction peers using removeMiddle.induct maxLen with
  | case1 peers hlt ih =>
    rw [removeMiddle, if_pos hlt]
    exact ih.trans (List.eraseIdx_sublist _ _)
  | case2 peers hle =>
    rw [removeMiddle, if_neg hle]

theorem removeMiddle_length_le (maxLen : ℕ) (peers : List T) :
    (removeMiddle maxLen peers).length ≤ maxLen := by
  induction peers using removeMiddle.induct maxLen with
  | case1 peers hlt ih =>
    rw [removeMiddle, if_pos hlt]
    exact ih
  | case2 peers hle =>
    rw [removeMiddle, if_neg hle]
    exact Nat.le_of_not_lt hle

/-- What is left are the first two thirds of the allowed length, and the last of the
list. -/
theorem removeMiddle_append {maxLen : ℕ} : ∀ {middle first last : List T},
    first.length = maxLen * 2 / 3 → first.length + last.length = maxLen →
      removeMiddle maxLen (first ++ (middle ++ last)) = first ++ last := by
  intro middle first last hfirst hlen
  induction middle with
  | nil =>
    rw [removeMiddle, if_neg]
    · rfl
    · rw [List.nil_append, List.length_append]
      omega
  | cons x middle ih =>
    rw [removeMiddle, if_pos]
    · rw [← hfirst, List.eraseIdx_append_of_length_le le_rfl, Nat.sub_self, List.cons_append,
        List.eraseIdx_zero, List.tail_cons, ih]
    · simp only [List.length_append, List.length_cons]
      omega

/-- **Every choice of allowed length is left by some shuffle**, or a longer one. -/
theorem exists_perm_removeMiddle {maxLen : ℕ} {peers all : List T} (hsub : peers.Subperm all)
    (hlen : peers.length ≤ maxLen) :
    ∃ shuffled rest, shuffled.Perm all ∧
      (removeMiddle maxLen shuffled).Perm (peers ++ rest) := by
  obtain ⟨peers', hperm', hsublist⟩ := hsub
  obtain ⟨others, hall⟩ := hsublist.exists_perm_append
  have hall' : all.Perm (peers ++ others) := hall.trans (hperm'.append_right others)
  by_cases hshort : all.length ≤ maxLen
  · refine ⟨all, others, .refl _, ?_⟩
    rw [removeMiddle, if_neg (Nat.not_lt.mpr hshort)]
    exact hall'
  · -- fill up the choice, and put what is too much into the middle
    let extra := others.take (maxLen - peers.length)
    let middle := others.drop (maxLen - peers.length)
    let kept := peers ++ extra
    have hlenAll : peers.length + others.length = all.length := by
      rw [← List.length_append, hall'.length_eq]
    have hkept : kept.length = maxLen := by
      simp only [kept, extra, List.length_append, List.length_take]
      omega
    let first := kept.take (maxLen * 2 / 3)
    let last := kept.drop (maxLen * 2 / 3)
    have hsplit : first ++ last = kept := List.take_append_drop _ _
    have hfirst : first.length = maxLen * 2 / 3 := by
      rw [List.length_take, hkept]
      omega
    have hsum : first.length + last.length = maxLen := by
      rw [← List.length_append, hsplit, hkept]
    refine ⟨first ++ (middle ++ last), extra, ?_, ?_⟩
    · have hmiddle : (first ++ (middle ++ last)).Perm (kept ++ middle) := by
        rw [← hsplit, List.append_assoc]
        exact List.perm_append_comm.append_left first
      refine hmiddle.trans (List.Perm.trans ?_ hall'.symm)
      rw [List.append_assoc, List.take_append_drop]
    · rw [removeMiddle_append hfirst hsum, hsplit]

end RemoveMiddle

instance : Inhabited Shuffle := ⟨⟨id, Shuffle.perm_id⟩⟩

/-- The shuffle that makes one list of another. -/
def Shuffle.of {peers shuffled : List (PeerID × String)} (h : shuffled.Perm peers) : Shuffle where
  apply l := if l = peers then shuffled else l
  perm l := by
    by_cases heq : l = peers
    · rw [if_pos heq, heq]
      exact h
    · rw [if_neg heq]

/-! ### When every response can be read -/

section Fits

variable {layout : Layout} {pool : ConnectionPool} {dht : DhtStore}

/-- **The length of a response**, by what it lists. -/
theorem size_responseTo_iff (p : Packet) :
    (∀ shuffle response, responseTo pool dht shuffle p = some response →
      layout.size response < maxPacketSize) ↔ Roomy layout pool dht p := by
  cases p with
  | discoverPeers p =>
    by_cases h : p.mask.length ≤ 32
    · have hto : ∀ shuffle, responseTo pool dht shuffle (.discoverPeers p) =
          some (.discoverPeersResp (pool.prepareDiscoverPeersResponse shuffle.apply p h)) := by
        intro shuffle
        rw [responseTo, onPacket, dif_pos h]
      have hsize : ∀ resp : DiscoverPeersRespPacket, layout.size (.discoverPeersResp resp) =
          layout.discriminant "DiscoverPeersResp" + 4 + layout.ofVec layout.ofPeer resp.peers :=
        fun resp => (Nat.add_assoc _ _ _).symm
      simp only [hto, Option.some.injEq, forall_eq', hsize]
      constructor
      · intro hall _ peers hsub hlen
        obtain ⟨shuffled, rest, hperm, hleft⟩ := exists_perm_removeMiddle hsub hlen
        have hfits := hall (Shuffle.of hperm)
        have hshuffle : (Shuffle.of hperm).apply (pool.matchingPeers p.target ⟨p.mask, h⟩) =
            shuffled := if_pos rfl
        simp only [prepareDiscoverPeersResponse, hshuffle] at hfits
        rw [layout.ofVec_perm _ hleft] at hfits
        have hle := layout.ofVec_append_le layout.ofPeer peers rest
        omega
      · intro hroomy shuffle
        refine hroomy h _ ?_ (removeMiddle_length_le _ _)
        exact (removeMiddle_sublist _ _).subperm.trans (shuffle.perm _).subperm
    · have hto : ∀ shuffle, responseTo pool dht shuffle (.discoverPeers p) = none := by
        intro shuffle
        rw [responseTo, onPacket, dif_neg h]
      simp only [hto, Roomy]
      exact iff_of_true (by simp) fun h' => absurd h' h
  | findDhtValue p =>
    have hsize : ∀ resp : FindDhtValueRespPacket, layout.size (.findDhtValueResp resp) =
        layout.discriminant "FindDhtValueResp" + (4 + layout.ofDhtLookupResult resp.result) :=
      fun resp => rfl
    rcases hget : dht.get p.key with ⟨_ | values, dht'⟩
    · have hto : ∀ shuffle, responseTo pool dht shuffle (.findDhtValue p) =
          some (notFoundResponse pool p) := by
        intro shuffle
        simp only [responseTo, onPacket, hget]
      simp only [hto, Option.some.injEq, forall_eq', notFoundResponse, hsize,
        Layout.ofDhtLookupResult, Roomy, hget, forall_const]
      omega
    · have hto : ∀ shuffle, responseTo pool dht shuffle (.findDhtValue p) =
          some (foundResponse p values) := by
        intro shuffle
        simp only [responseTo, onPacket, hget]
      simp only [hto, Option.some.injEq, forall_eq', foundResponse, hsize,
        Layout.ofDhtLookupResult, Roomy, hget, forall_const]
      omega
  | findPeer p =>
    have hto : ∀ shuffle, responseTo pool dht shuffle (.findPeer p) = some (.findPeerResp
        { requestId := p.requestId, peers := nearestPeers pool p.peerId p.limit }) := fun _ => rfl
    simp only [hto, Option.some.injEq, forall_eq', Layout.size, Packet.variantName,
      Layout.ofFields, Roomy,
      forall_const]
    omega
  | ping p =>
    have hto : ∀ shuffle, responseTo pool dht shuffle (.ping p) = some (.pong p) := fun _ => rfl
    simp only [hto, Option.some.injEq, forall_eq', Layout.size, Packet.variantName,
      Layout.ofFields, Roomy,
      forall_const]
  | discoverPeersResp p =>
    refine iff_of_true (fun shuffle response hto => ?_) trivial
    rw [responseTo_of_notifyIf rfl] at hto
    cases hto
  | findDhtValueResp p =>
    refine iff_of_true (fun shuffle response hto => ?_) trivial
    rw [responseTo_of_notifyIf rfl] at hto
    cases hto
  | findPeerResp p =>
    refine iff_of_true (fun shuffle response hto => ?_) trivial
    rw [responseTo_of_notifyIf rfl] at hto
    cases hto
  | _ => exact iff_of_true (fun shuffle response hto => by cases hto) trivial

/-- **Every response to a request can be read exactly when what it may list leaves
room for it**, whatever the pool, the store and the request. -/
theorem response_fits_iff_roomy (layout : Layout) (codec : Codec Bytes)
    (hfollows : codec.Follows layout) (pool : ConnectionPool) (dht : DhtStore) (p : Packet)
    (hencodes : ∀ shuffle response, responseTo pool dht shuffle p = some response →
      ∃ body, codec.rawBytes response = .ok body) :
    (∀ shuffle response body, responseTo pool dht shuffle p = some response →
      codec.rawBytes response = .ok body →
        body.length < maxPacketSize ∧ parse maxPacketSize (frame body) = .complete body []) ↔
      Roomy layout pool dht p := by
  rw [← size_responseTo_iff]
  constructor
  · intro hall shuffle response hto
    obtain ⟨body, hbody⟩ := hencodes shuffle response hto
    rw [← hfollows response body hbody]
    exact (hall shuffle response body hto hbody).1
  · intro hall shuffle response body hto hbody
    have hlt : body.length < maxPacketSize := by
      rw [hfollows response body hbody]
      exact hall shuffle response hto
    have hparse := parse_frame_append maxPacketSize_le hlt []
    rw [List.append_nil] at hparse
    exact ⟨hlt, hparse⟩

end Fits

/-! ### A peer with a long address -/

/-- An address of a length. -/
def addrOfLength : ℕ → String
  | 0 => ""
  | n + 1 => (addrOfLength n).push 'a'

theorem utf8ByteSize_addrOfLength (n : ℕ) : (addrOfLength n).utf8ByteSize = n := by
  induction n with
  | zero => rfl
  | succ n ih =>
    rw [addrOfLength, String.utf8ByteSize_push, ih]
    rfl

/-- The crates of the pair of nodes, with packets of their lengths. -/
def paddedCrates (packets : List Packet) : Crates Bytes RsaPublicKey Unit :=
  { pairCrates packets with toCodec := paddedCodec Layout.derived packets }

/-- The pair of nodes, the right one with an address of its own choosing. -/
def paddedEnds (packets : List Packet) (addr : String) (k : Side) :
    Endpoint (paddedCrates packets) where
  identity :=
    { rsaPrivateKey := pairKey k
      rsaPublicKey := pairKey k
      peerId := fromRsaPublicKey realSha256 (pairKey k)
      addr := match k with
        | .left => "local-0"
        | .right => addr
      peerId_eq := (pairEnds packets k).identity.peerId_eq }
  expectedPeerId := none
  draws := (pairEnds packets k).draws

/-- What the right node asks for. -/
def longRequest : FindPeerPacket :=
  { requestId := 0, peerId := fromRsaPublicKey realSha256 smallKeyB, limit := 32 }

/-- The answer that lists the right node. -/
def longResponse (addr : String) : Packet :=
  .findPeerResp { requestId := 0, peers := [(fromRsaPublicKey realSha256 smallKeyB, addr)] }

/-- The packets of the handshake of the two nodes, and the answer. -/
def longPackets (addr : String) : List Packet :=
  [versionPacket, (pairEnds [] .left).rsaPacket, (pairEnds [] .right).rsaPacket,
    (pairEnds [] .left).aesPacket (pairEnds [] .right).draws.nonce,
    (pairEnds [] .right).aesPacket (pairEnds [] .left).draws.nonce,
    .ehlo { addr := "local-0" }, .ehlo { addr }, longResponse addr]

section Long

variable {addr : String}

theorem long_encodes (addr : String) {p : Packet} (h : p ∈ longPackets addr) :
    ∃ body, (paddedCrates (longPackets addr)).rawBytes p = .ok body ∧
      body.length = Layout.derived.size p :=
  ⟨_, if_pos h, paddedCodec_follows Layout.derived_discriminant_pos p _ (if_pos h)⟩

theorem long_size_rsa (k : Side) : Layout.derived.size (pairEnds [] k).rsaPacket = 41 := by
  have hkey := pair_hashedString_length k
  rw [hashedString, List.length_append] at hkey
  show 11 + ((4 + (ByteString.leMin (pairKey k).e).length) +
    (4 + (ByteString.leMin (pairKey k).n).length) +
      (4 + (pairEnds [] k).draws.nonce.length)) = 41
  rw [(pairEnds [] k).draws.nonce_length]
  omega

theorem long_size_response (addr : String) :
    Layout.derived.size (longResponse addr) = 60 + addr.utf8ByteSize := by
  show 16 + (4 + (4 + (32 + (4 + addr.utf8ByteSize) + 0))) = 60 + addr.utf8ByteSize
  omega

theorem long_reliable (haddr : addr.utf8ByteSize + 12 < maxPacketSize) :
    Reliable (paddedCrates (longPackets addr)) (paddedEnds (longPackets addr) addr) where
  decodes p body h := paddedCodec_decodes (by simp [longPackets]) h
  encodes k p hp := by
    simp only [List.mem_cons, List.not_mem_nil, or_false] at hp
    rcases hp with rfl | rfl | rfl
    · obtain ⟨body, hbody, hlen⟩ := long_encodes addr (p := versionPacket)
        (by simp [longPackets])
      refine ⟨body, hbody, ?_⟩
      rw [hlen]
      decide
    · have hrsa : (paddedEnds (longPackets addr) addr k).rsaPacket = (pairEnds [] k).rsaPacket := by
        cases k <;> rfl
      obtain ⟨body, hbody, hlen⟩ := long_encodes addr (p := (pairEnds [] k).rsaPacket)
        (by cases k <;> simp [longPackets])
      refine ⟨body, hrsa ▸ hbody, ?_⟩
      rw [hlen, long_size_rsa]
      decide
    · cases k with
      | left =>
        obtain ⟨body, hbody, hlen⟩ := long_encodes addr
          (p := .ehlo { addr := "local-0" }) (by simp [longPackets])
        refine ⟨body, hbody, ?_⟩
        rw [hlen]
        decide
      | right =>
        obtain ⟨body, hbody, hlen⟩ := long_encodes addr
          (p := .ehlo { addr }) (by simp [longPackets])
        refine ⟨body, hbody, ?_⟩
        rw [hlen]
        show 8 + (4 + addr.utf8ByteSize) < maxPacketSize
        omega
  accepts k := rfl
  encrypts k := by
    obtain ⟨body, hbody, hlen⟩ := long_encodes addr
      (p := (pairEnds [] k).aesPacket (pairEnds [] k.other).draws.nonce)
      (by cases k <;> simp [longPackets, Side.other])
    refine ⟨body, hashedString (pairKey k.other) ++ body, ?_, rfl, ?_⟩
    · rw [← hbody]
      cases k <;> rfl
    · rw [List.length_append, hlen, pair_hashedString_length]
      cases k <;> decide
  decrypts k seed body cipher h := by
    cases h
    have hprefix : (hashedString (pairKey k)).isPrefixOf (hashedString (pairKey k) ++ body) :=
      List.isPrefixOf_iff_prefix.mpr (List.prefix_append _ _)
    exact (if_pos hprefix).trans (congrArg Except.ok List.drop_left)

theorem long_distinct : Distinct (paddedEnds (longPackets addr) addr) where
  ne := smallKeys_peerId_ne
  expected _ := Or.inl rfl

theorem nearestPeers_insert_new (ourPeerId n key : PeerID) (peer : PeerInfo) :
    nearestPeers ((ConnectionPool.new ourPeerId).insert n peer) key 32 = [(n, peer.addr)] := by
  rw [nearestPeers, peersWithAddrs_insert_new, sortByDistance, List.mergeSort_singleton]
  rfl

theorem exists_exec_long (addr : String) (haddr : addr.utf8ByteSize + 12 < maxPacketSize) :
    ∃ labels s, exec (JoinState.step (paddedEnds (longPackets addr) addr .left).identity)
        (.init (paddedEnds (longPackets addr) addr .left).identity) labels = some s ∧
      ∀ shuffle, responseTo s.node.pool s.node.dht shuffle (.findPeer longRequest) =
        some (longResponse addr) := by
  obtain ⟨course⟩ := exists_course (long_reliable haddr) long_distinct
  have habsent : (NodeState.init
      (paddedEnds (longPackets addr) addr .left).identity.peerId).pool.connections[
        (paddedEnds (longPackets addr) addr .right).identity.peerId]? = none := by
    simp [NodeState.init, ConnectionPool.new]
  obtain ⟨labels, hrun⟩ := exists_exec_joined (k := .left) (c := 0)
    (s := JoinState.init (paddedEnds (longPackets addr) addr .left).identity) course rfl habsent
  refine ⟨labels, _, hrun, fun shuffle => congrArg some ?_⟩
  have hpool := congrArg NodeState.pool
    (insertPeer_of_none (paddedCrates (longPackets addr)).toCodec addr habsent)
  have hnearest := nearestPeers_insert_new
    (paddedEnds (longPackets addr) addr .left).identity.peerId
    (fromRsaPublicKey realSha256 smallKeyB) longRequest.peerId ⟨addr, 0, none, 0⟩
  rw [longResponse, ← hnearest]
  exact congrArg (fun pool => Packet.findPeerResp
    { requestId := 0, peers := nearestPeers pool longRequest.peerId 32 }) hpool

end Long

/-- **A peer with an address of 999960 bytes** gets an answer of 1000020 bytes. -/
theorem one_peer_is_too_long :
    ∃ labels s response body,
      exec (JoinState.step
          (paddedEnds (longPackets (addrOfLength 999960)) (addrOfLength 999960) .left).identity)
        (.init (paddedEnds (longPackets (addrOfLength 999960)) (addrOfLength 999960)
          .left).identity) labels = some s ∧
      responseTo s.node.pool s.node.dht default (.findPeer longRequest) = some response ∧
      (paddedCodec .derived (longPackets (addrOfLength 999960))).rawBytes response = .ok body ∧
      ¬ body.length < maxPacketSize := by
  obtain ⟨labels, s, hrun, hto⟩ := exists_exec_long (addrOfLength 999960)
    (by rw [utf8ByteSize_addrOfLength]; decide)
  obtain ⟨body, hbody, hlen⟩ := long_encodes (addrOfLength 999960)
    (p := longResponse (addrOfLength 999960)) (by simp [longPackets])
  refine ⟨labels, s, _, body, hrun, hto default, hbody, ?_⟩
  rw [hlen, long_size_response, utf8ByteSize_addrOfLength]
  decide

/-- There was no room in that pool. -/
theorem response_fits_iff_roomy_long :
    ∃ labels s,
      exec (JoinState.step
          (paddedEnds (longPackets (addrOfLength 999960)) (addrOfLength 999960) .left).identity)
        (.init (paddedEnds (longPackets (addrOfLength 999960)) (addrOfLength 999960)
          .left).identity) labels = some s ∧
      ¬ Roomy Layout.derived s.node.pool s.node.dht (.findPeer longRequest) := by
  obtain ⟨labels, s, hrun, hto⟩ := exists_exec_long (addrOfLength 999960)
    (by rw [utf8ByteSize_addrOfLength]; decide)
  obtain ⟨body, hbody, hlen⟩ := long_encodes (addrOfLength 999960)
    (p := longResponse (addrOfLength 999960)) (by simp [longPackets])
  refine ⟨labels, s, hrun, ?_⟩
  rw [← response_fits_iff_roomy Layout.derived
    (paddedCodec .derived (longPackets (addrOfLength 999960)))
    (paddedCodec_follows Layout.derived_discriminant_pos)
    s.node.pool s.node.dht (.findPeer longRequest) fun shuffle response heq => by
      rw [hto] at heq
      cases heq
      exact ⟨body, hbody⟩]
  intro hall
  have hlt := (hall default _ body (hto default) hbody).1
  rw [hlen, long_size_response, utf8ByteSize_addrOfLength] at hlt
  exact absurd hlt (by decide)

end Tewta
