import Mathlib
import Tewta.Packets

/-!
# The connection pool

`ConnectionPool.connections` is a `BTreeMap` behind a mutex.  Each function
here is one critical section of the pool, that is, what one function of the
sources does between taking the lock and releasing it; the modules on runs put
them in order.

A stream is a number, and so is the read task that `insert` spawns for it.
-/

namespace Tewta

/-- The two halves of a connection, by number. -/
abbrev StreamId := ℕ

/-- What `tokio::spawn` returns, by number. -/
abbrev TaskId := ℕ

structure PeerInfo where
  addr : String
  writeStream : StreamId
  pingNanos : Option ℕ
  readStreamTask : TaskId

structure ConnectionPool where
  connections : Std.ExtTreeMap PeerID PeerInfo
  ourPeerId : PeerID

namespace ConnectionPool

/-- `ConnectionPool::new`. -/
def new (ourPeerId : PeerID) : ConnectionPool := ⟨∅, ourPeerId⟩

/-- `ConnectionPool::contains`. -/
def contains (pool : ConnectionPool) (peerId : PeerID) : Bool :=
  pool.connections.contains peerId

/-- `ConnectionPool::peers_with_addrs`. -/
def peersWithAddrs (pool : ConnectionPool) : List (PeerID × String) :=
  pool.connections.toList.map fun e => (e.1, e.2.addr)

/-- `ConnectionPool::peers`. -/
def peers (pool : ConnectionPool) : List PeerID := pool.connections.keys

/-- `ConnectionPool::peers_on_bucket`. -/
def peersOnBucket (pool : ConnectionPool) (bucketLevel bucketId : ℕ) : List PeerID :=
  pool.connections.keys.filter fun n =>
    ((n.bucket pool.ourPeerId).map (· == (bucketLevel, bucketId))).getD false

/-- `ConnectionPool::peers_on_bucket_and_under`. -/
def peersOnBucketAndUnder (pool : ConnectionPool) (bucketLevel : ℕ) : List PeerID :=
  pool.connections.keys.filter fun n =>
    ((n.bucket pool.ourPeerId).map fun l => decide (l.1 ≤ bucketLevel)).getD false

/-- The critical section of `disconnect` that removes the peer. -/
def remove (pool : ConnectionPool) (n : PeerID) : ConnectionPool :=
  { pool with connections := pool.connections.erase n }

/-- The critical section of `insert` that adds a peer, once its read task is
spawned. -/
def insert (pool : ConnectionPool) (peerId : PeerID) (peer : PeerInfo) : ConnectionPool :=
  { pool with connections := pool.connections.insert peerId peer }

theorem contains_eq_isSome (pool : ConnectionPool) (n : PeerID) :
    pool.contains n = (pool.connections[n]?).isSome := by
  rw [contains, Std.ExtTreeMap.contains_eq_isSome_getElem?]

theorem getElem?_insert (pool : ConnectionPool) (m n : PeerID) (peer : PeerInfo) :
    (pool.insert m peer).connections[n]? = if m = n then some peer else pool.connections[n]? := by
  rw [insert, Std.ExtTreeMap.getElem?_insert]
  by_cases h : m = n
  · rw [if_pos h, if_pos (Std.LawfulEqOrd.compare_eq_iff_eq.mpr h)]
  · rw [if_neg h, if_neg (fun hc => h (Std.LawfulEqOrd.compare_eq_iff_eq.mp hc))]

theorem getElem?_remove (pool : ConnectionPool) (m n : PeerID) :
    (pool.remove m).connections[n]? = if m = n then none else pool.connections[n]? := by
  rw [remove, Std.ExtTreeMap.getElem?_erase]
  by_cases h : m = n
  · rw [if_pos h, if_pos (Std.LawfulEqOrd.compare_eq_iff_eq.mpr h)]
  · rw [if_neg h, if_neg (fun hc => h (Std.LawfulEqOrd.compare_eq_iff_eq.mp hc))]

/-! ### Answering a discovery request -/

/-- The first loop of `prepare_discover_peers_response`. -/
def matchingPeers (pool : ConnectionPool) (target : PeerID) (mask : Mask) :
    List (PeerID × String) :=
  (pool.connections.toList.filter fun e => e.1.matches target mask).map fun e => (e.1, e.2.addr)

/-- The last loop of `prepare_discover_peers_response`: while there are too many
peers, the one two thirds down the allowed length goes. -/
def removeMiddle {α : Type} (maxLen : ℕ) (peers : List α) : List α :=
  if maxLen < peers.length then removeMiddle maxLen (peers.eraseIdx (maxLen * 2 / 3)) else peers
  termination_by peers.length
  decreasing_by
    rw [List.length_eraseIdx_of_lt (by omega)]
    omega

/-- `ConnectionPool::prepare_discover_peers_response`, on a request whose mask
`on_packet` has let through.  `shuffle` is what `peers.shuffle` makes of the
list. -/
def prepareDiscoverPeersResponse (pool : ConnectionPool)
    (shuffle : List (PeerID × String) → List (PeerID × String)) (p : DiscoverPeersPacket)
    (h : p.mask.length ≤ 32) : DiscoverPeersRespPacket :=
  let peers := shuffle (pool.matchingPeers p.target ⟨p.mask, h⟩)
  let maxLen := (min p.limit maxDiscoveryPeersReturned).toNat
  { requestId := p.requestId, peers := removeMiddle maxLen peers }

theorem peersWithAddrs_insert_new (ourPeerId n : PeerID) (peer : PeerInfo) :
    ((ConnectionPool.new ourPeerId).insert n peer).peersWithAddrs = [(n, peer.addr)] := by
  have hlist : ((∅ : Std.ExtTreeMap PeerID PeerInfo).insert n peer).toList = [(n, peer)] := by
    refine List.perm_singleton.mp ((List.perm_ext_iff_of_nodup ?_ (List.nodup_singleton _)).mpr ?_)
    · exact Std.ExtTreeMap.distinct_keys_toList.imp fun hne heq => hne (by rw [heq]; simp)
    · rintro ⟨m, peer'⟩
      rw [Std.ExtTreeMap.mem_toList_iff_getElem?_eq_some]
      have hget := getElem?_insert (ConnectionPool.new ourPeerId) n m peer
      simp only [ConnectionPool.insert, ConnectionPool.new] at hget
      rw [hget, List.mem_singleton, Prod.mk.injEq]
      by_cases heq : n = m
      · subst heq
        simp [eq_comm]
      · simp [heq, Ne.symm heq]
  rw [peersWithAddrs, ConnectionPool.insert, ConnectionPool.new, hlist]
  rfl

end ConnectionPool

end Tewta
