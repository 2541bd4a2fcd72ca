import Tewta.Node.Connections
import Tewta.Node.Dht

/-!
# Handling packets

`on_packet` runs in the read task of the peer that sent the packet, and waits
for a lock several times on its way.  `Handler` says where it stands between
two of these waits, `onPacket` is its first section, and `replied` and
`listedPeers` are what the later ones compute.  The sections that change the
state of the node are in the module on its runs.

`disconnect` is cut in the same way: it sends the Quit under the lock, lets go of
it, takes it again to remove the peer, and announces the removal.

The four kinds of packet of the handshake fall to the last arm of the match,
`todo!()`, for which `onPacket` has no result.
-/

namespace Tewta

/-- What `shuffle` makes of a list. -/
structure Shuffle where
  apply : List (PeerID × String) → List (PeerID × String)
  perm : ∀ peers, (apply peers).Perm peers

theorem Shuffle.perm_id (peers : List (PeerID × String)) : (id peers).Perm peers := .refl _

/-- Where a call of `disconnect` stands: before it sends the Quit, before it
removes the peer, and before it announces the removal. -/
inductive Disconnecting
  | quitting
  | removing
  | announcing
  deriving DecidableEq

/-- Where a call of `on_packet` stands. -/
inductive Handler
  | start (p : Packet)
  | listPeers (p : FindDhtValuePacket)
  | reply (response : Packet) (p : Packet)
  | fire (p : Packet)
  | disconnecting (stage : Disconnecting) (p : QuitPacket)
  | finished
  deriving DecidableEq

/-- `on_packet` once a section of its `disconnect` is over. -/
def Handler.resume (p : QuitPacket) : Option Disconnecting → Handler
  | some stage => .disconnecting stage p
  | none => .fire (.quit p)

/-- The answer to a Quit. -/
def quitReceived : QuitPacket :=
  { reasonCode := "QuitReceived", message := none, reportFault := false }

/-- `peers.sort_by_key` with the distance to a key. -/
def sortByDistance (key : PeerID) (peers : List (PeerID × String)) : List (PeerID × String) :=
  peers.mergeSort fun a b =>
    (compare (a.1.distance key).toList (b.1.distance key).toList).isLE

/-- The peers nearest to a key, at most `limit` of them. -/
def nearestPeers (pool : ConnectionPool) (key : PeerID) (limit : UInt16) :
    List (PeerID × String) :=
  (sortByDistance key pool.peersWithAddrs).take (min maxDhtPeersReturned limit).toNat

/-- The answer to a request for values that are there. -/
def foundResponse (p : FindDhtValuePacket) (values : List DhtValue) : Packet :=
  .findDhtValueResp
    { requestId := p.requestId
      result := .found (values.take (min maxDhtValuesReturned p.limitValues).toNat) }

/-- The answer to a request for values that are not. -/
def notFoundResponse (pool : ConnectionPool) (p : FindDhtValuePacket) : Packet :=
  .findDhtValueResp
    { requestId := p.requestId, result := .notFound (nearestPeers pool p.key p.limitPeers) }

/-- Does the answer to a request for values have no more of them than allowed? -/
def DhtLookupResult.isShort : DhtLookupResult → Bool
  | .found values => values.length ≤ maxDhtValuesReturned.toNat
  | .notFound peers => peers.length ≤ maxDhtPeersReturned.toNat

/-- A packet that is only passed on to the listeners, unless it is too long. -/
def notifyIf (short : Bool) (p : Packet) : Handler := if short then .fire p else .finished

/-- `on_packet`, to the end of its first section. -/
def onPacket (pool : ConnectionPool) (dht : DhtStore) (shuffle : Shuffle) :
    Packet → Option (Handler × DhtStore)
  | .discoverPeers p =>
    if h : p.mask.length ≤ 32 then
      let response := pool.prepareDiscoverPeersResponse shuffle.apply p h
      some (.reply (.discoverPeersResp response) (.discoverPeers p), dht)
    else some (.finished, dht)
  | .discoverPeersResp p =>
    some (notifyIf (p.peers.length ≤ maxDiscoveryPeersReturned.toNat) (.discoverPeersResp p), dht)
  | .findDhtValue p =>
    match dht.get p.key with
    | (some values, dht) => some (.reply (foundResponse p values) (.findDhtValue p), dht)
    | (none, dht) => some (.listPeers p, dht)
  | .findDhtValueResp p => some (notifyIf p.result.isShort (.findDhtValueResp p), dht)
  | .findPeer p =>
    let peers := nearestPeers pool p.peerId p.limit
    some (.reply (.findPeerResp { requestId := p.requestId, peers }) (.findPeer p), dht)
  | .findPeerResp p =>
    some (notifyIf (p.peers.length ≤ maxDhtPeersReturned.toNat) (.findPeerResp p), dht)
  | .storeDhtValue p => some (.fire (.storeDhtValue p), dht)
  | .ping p => some (.reply (.pong p) (.ping p), dht)
  | .pong p => some (.fire (.pong p), dht)
  | .quit p => some (.disconnecting .quitting p, dht)
  | .protocolVersion _ => none
  | .initRsa _ => none
  | .initAes _ => none
  | .ehlo _ => none

/-- The packets of the handshake. -/
def Packet.isHandshake : Packet → Bool
  | .protocolVersion _ => true
  | .initRsa _ => true
  | .initAes _ => true
  | .ehlo _ => true
  | _ => false

/-- `on_packet` panics on exactly the packets of the handshake. -/
theorem onPacket_eq_none_iff (pool : ConnectionPool) (dht : DhtStore) (shuffle : Shuffle)
    (p : Packet) : onPacket pool dht shuffle p = none ↔ p.isHandshake = true := by
  cases p with
  | discoverPeers p =>
    rw [onPacket]
    split <;> simp [Packet.isHandshake]
  | findDhtValue p =>
    rw [onPacket]
    split <;> simp [Packet.isHandshake]
  | _ => simp [onPacket, Packet.isHandshake]

/-- The packets that `on_packet` answers with. -/
def Packet.isResponse : Packet → Bool
  | .discoverPeersResp _ => true
  | .findDhtValueResp _ => true
  | .findPeerResp _ => true
  | .pong _ => true
  | _ => false

theorem Packet.not_handshake_of_isResponse {p : Packet} (h : p.isResponse = true) :
    p.isHandshake = false := by
  cases p with
  | discoverPeersResp => rfl
  | findDhtValueResp => rfl
  | findPeerResp => rfl
  | pong => rfl
  | _ => cases h

/-- Where a call of `on_packet` can stand after its first section: it calls
`disconnect` on a Quit only, and answers with responses. -/
structure FirstStop (p : Packet) (handler : Handler) : Prop where
  ne_start : ∀ p', handler ≠ .start p'
  disconnecting : ∀ stage q, handler = .disconnecting stage q ↔ stage = .quitting ∧ p = .quit q
  reply : ∀ response p', handler = .reply response p' → response.isResponse = true

theorem firstStop_notifyIf (short : Bool) {p : Packet} (h : ∀ q, p ≠ .quit q) :
    FirstStop p (notifyIf short p) := by
  cases short <;> constructor <;> simp [notifyIf, h]

theorem firstStop_reply {response p : Packet} (h : ∀ q, p ≠ .quit q)
    (hresponse : response.isResponse = true) : FirstStop p (.reply response p) := by
  constructor
  · simp
  · simp [h]
  · intro response' p' heq
    cases heq
    exact hresponse

theorem firstStop_onPacket {pool : ConnectionPool} {dht : DhtStore} {shuffle : Shuffle}
    {p : Packet} {r : Handler × DhtStore} (h : onPacket pool dht shuffle p = some r) :
    FirstStop p r.1 := by
  cases p with
  | discoverPeers p =>
    rw [onPacket] at h
    split at h
    · cases h
      exact firstStop_reply (by simp) rfl
    · cases h
      exact firstStop_notifyIf false (by simp)
  | findDhtValue p =>
    rw [onPacket] at h
    split at h
    · cases h
      exact firstStop_reply (by simp) rfl
    · cases h
      constructor <;> simp
  | findPeer p => cases h; exact firstStop_reply (by simp) rfl
  | ping p => cases h; exact firstStop_reply (by simp) rfl
  | discoverPeersResp p => cases h; exact firstStop_notifyIf _ (by simp)
  | findDhtValueResp p => cases h; exact firstStop_notifyIf _ (by simp)
  | findPeerResp p => cases h; exact firstStop_notifyIf _ (by simp)
  | storeDhtValue p => cases h; exact firstStop_notifyIf true (by simp)
  | pong p => cases h; exact firstStop_notifyIf true (by simp)
  | quit p =>
    cases h
    constructor
    · simp
    · intro stage q
      simp only [Handler.disconnecting.injEq, Packet.quit.injEq]
      exact and_congr_left fun _ => eq_comm
    · simp
  | _ => cases h

/-- A call of `on_packet` that has a Quit and has not yet removed the peer. -/
def Handler.isQuitting : Handler → Bool
  | .start (.quit _) => true
  | .disconnecting .quitting _ => true
  | .disconnecting .removing _ => true
  | _ => false

theorem FirstStop.isQuitting {p : Packet} {handler : Handler} (h : FirstStop p handler) :
    handler.isQuitting = (Handler.start p).isQuitting := by
  cases handler with
  | start p' => exact absurd rfl (h.ne_start p')
  | disconnecting stage q =>
    obtain ⟨rfl, rfl⟩ := (h.disconnecting stage q).mp rfl
    rfl
  | _ =>
    cases p with
    | quit q => exact absurd ((h.disconnecting .quitting q).mpr ⟨rfl, rfl⟩) (by simp)
    | _ => rfl

end Tewta
