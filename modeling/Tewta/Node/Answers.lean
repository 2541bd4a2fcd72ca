import Tewta.Node.DhtSearch
import Tewta.Node.Discovery
import Tewta.Node.Responses

/-!
# What the answers say

`on_packet` answers a FindPeer, and a FindDhtValue for a key without values, with the peers
nearest to the key.  The distance is an exclusive or, so different ids are at different
distances from a key (`xor_distance_is_metric`): the sort leaves no choice, and what
`truncate` keeps is nearer than all the rest (`find_answers_nearest`).

A DiscoverPeers is answered with the matching peers in an order that is left to chance.  If
there are too many of them those in the middle are taken out, one at a time
(`discovery_answer_keeps_both_ends`).

The limits of the one who answers are those that the requester's `on_packet` checks.
-/

namespace Tewta

open ConnectionPool PeerID

/-! ### The metric -/

namespace PeerID

theorem distanceNat_eq_xor (a b : PeerID) :
    a.distanceNat b = ByteString.ofBe a.bytes.toList ^^^ ByteString.ofBe b.bytes.toList := by
  rw [distanceNat]
  exact ByteString.ofBe_zipWith_xor (by simp)

theorem distanceNat_comm (a b : PeerID) : a.distanceNat b = b.distanceNat a := by
  rw [distanceNat, distanceNat, distance_comm]

theorem distanceNat_triangle (a b c : PeerID) :
    a.distanceNat c ≤ a.distanceNat b + b.distanceNat c := by
  rw [distanceNat_eq_xor, distanceNat_eq_xor, distanceNat_eq_xor]
  exact ByteString.xor_triangle _ _ _

theorem distanceNat_eq_zero_iff {a b : PeerID} : a.distanceNat b = 0 ↔ a = b := by
  constructor
  · intro h
    exact distanceNat_inj (h.trans (distanceNat_self b).symm)
  · rintro rfl
    exact distanceNat_self a

end PeerID

/-- **The order of different peers is decided by their distances.** -/
theorem sortByDistance_eq_of_perm {key : PeerID} {peers peers' : List (PeerID × String)}
    (hperm : peers.Perm peers') (hne : peers.Pairwise fun p q => p.1 ≠ q.1) :
    sortByDistance key peers = sortByDistance key peers' := by
  have hsort : (sortByDistance key peers).Perm (sortByDistance key peers') :=
    (List.mergeSort_perm _ _).trans (hperm.trans (List.mergeSort_perm _ _).symm)
  have hnodup : ((sortByDistance key peers).map Prod.fst).Nodup :=
    ((List.mergeSort_perm _ _).map Prod.fst).nodup_iff.mpr (List.pairwise_map.mpr hne)
  refine List.Perm.eq_of_pairwise (fun p q hp hq hpq hqp => ?_)
    (pairwise_sortByDistance key peers) (pairwise_sortByDistance key peers') hsort
  have hid : p.1 = q.1 := (eq_iff_noFarther key p q).mpr ⟨hpq, hqp⟩
  exact List.inj_on_of_nodup_map hnodup hp (hsort.mem_iff.mpr hq) hid

/-- **The XOR distance is a metric in which no two ids are at one distance from a third**,
the byte strings are in the order of the numbers, and a sort by the distance to a key
does not depend on the order before it. -/
theorem xor_distance_is_metric (a b c : PeerID) :
    (a.distanceNat b = 0 ↔ a = b) ∧ a.distanceNat b = b.distanceNat a ∧
      a.distanceNat c ≤ a.distanceNat b + b.distanceNat c ∧
      (a.distanceNat c = b.distanceNat c → a = b) ∧
      (∀ d e : PeerID, compare (a.distance b).toList (d.distance e).toList =
        compare (a.distanceNat b) (d.distanceNat e)) ∧
      ∀ peers peers' : List (PeerID × String), peers.Perm peers' →
        (peers.Pairwise fun p q => p.1 ≠ q.1) →
          sortByDistance a peers = sortByDistance a peers' :=
  ⟨distanceNat_eq_zero_iff, distanceNat_comm a b, distanceNat_triangle a b c, distanceNat_inj,
    compare_distance a b, fun _ _ => sortByDistance_eq_of_perm⟩

/-! ### The nearest peers -/

/-- The `k` peers of a pool that are nearest to a key, the nearest first. -/
structure AreNearest (pool : ConnectionPool) (key : PeerID) (k : ℕ)
    (peers : List (PeerID × String)) : Prop where
  length : peers.length = k
  connected : ∀ p ∈ peers, p ∈ pool.peersWithAddrs
  nodup : (peers.map Prod.fst).Nodup
  increasing : peers.Pairwise fun p q => p.1.distanceNat key < q.1.distanceNat key
  nearest : ∀ p ∈ peers, ∀ q ∈ pool.peersWithAddrs, q ∉ peers →
    p.1.distanceNat key < q.1.distanceNat key

theorem nodup_peersWithAddrs (pool : ConnectionPool) :
    pool.peersWithAddrs.Pairwise fun p q => p.1 ≠ q.1 := by
  rw [peersWithAddrs, List.pairwise_map]
  exact Std.ExtTreeMap.distinct_keys_toList.imp fun hne heq => hne (by
    rw [heq]
    exact Std.ReflCmp.compare_self)

theorem length_peersWithAddrs (pool : ConnectionPool) :
    pool.peersWithAddrs.length = pool.peers.length := by
  rw [peersWithAddrs, List.length_map, peers, Std.ExtTreeMap.length_toList,
    Std.ExtTreeMap.length_keys]

theorem increasing_sortByDistance (pool : ConnectionPool) (key : PeerID) :
    (sortByDistance key pool.peersWithAddrs).Pairwise fun p q =>
      p.1.distanceNat key < q.1.distanceNat key := by
  have hne : (sortByDistance key pool.peersWithAddrs).Pairwise fun p q => p.1 ≠ q.1 :=
    List.pairwise_map.mp (((List.mergeSort_perm _ _).map Prod.fst).nodup_iff.mpr
      (List.pairwise_map.mpr (nodup_peersWithAddrs pool)))
  refine ((pairwise_sortByDistance key _).and hne).imp fun ⟨hle, hdiff⟩ => ?_
  exact lt_of_le_of_ne (noFarther_iff.mp hle) fun heq => hdiff (distanceNat_inj heq)

/-- **What the sort and `truncate` leave.** -/
theorem nearestPeers_areNearest (pool : ConnectionPool) (key : PeerID) (limit : UInt16) :
    AreNearest pool key (min (min maxDhtPeersReturned limit).toNat pool.peers.length)
      (nearestPeers pool key limit) := by
  have hsorted := increasing_sortByDistance pool key
  have hincreasing : (nearestPeers pool key limit).Pairwise fun p q =>
      p.1.distanceNat key < q.1.distanceNat key := hsorted.sublist (List.take_sublist _ _)
  refine ⟨?_, fun p hp => ?_, ?_, hincreasing, fun p hp q hq hmem => ?_⟩
  · rw [nearestPeers, List.length_take, sortByDistance, List.length_mergeSort,
      length_peersWithAddrs]
  · exact mem_sortByDistance.mp (List.mem_of_mem_take hp)
  · refine List.pairwise_map.mpr (hincreasing.imp fun hlt heq => ?_)
    rw [heq] at hlt
    exact lt_irrefl _ hlt
  · -- a peer that is left out stands behind all that are kept
    rw [← List.take_append_drop (min maxDhtPeersReturned limit).toNat
      (sortByDistance key pool.peersWithAddrs), List.pairwise_append] at hsorted
    have hq' : q ∈ sortByDistance key pool.peersWithAddrs := mem_sortByDistance.mpr hq
    rw [← List.take_append_drop (min maxDhtPeersReturned limit).toNat
      (sortByDistance key pool.peersWithAddrs), List.mem_append] at hq'
    exact hsorted.2.2 p hp q (hq'.resolve_left hmem)

/-- An answer with no more than is allowed is passed on to the listeners. -/
theorem onPacket_of_short {short : Bool} {p : Packet} {dht : DhtStore} (h : short = true) :
    some (notifyIf short p, dht) = some (Handler.fire p, dht) := by
  rw [h]
  rfl

theorem toNat_min (a b : UInt16) : (min a b).toNat = min a.toNat b.toNat := by
  show (if a ≤ b then a else b).toNat = _
  split
  · rename_i hle
    exact (Nat.min_eq_left hle).symm
  · rename_i hle
    exact (Nat.min_eq_right (Nat.le_of_not_le hle)).symm

theorem responseTo_findPeer (pool : ConnectionPool) (dht : DhtStore) (shuffle : Shuffle)
    (p : FindPeerPacket) : responseTo pool dht shuffle (.findPeer p) =
      some (.findPeerResp
        { requestId := p.requestId, peers := nearestPeers pool p.peerId p.limit }) :=
  rfl

theorem responseTo_findDhtValue {dht : DhtStore} {values : KeyID → List DhtValue}
    (h : dht.Holds values) (pool : ConnectionPool) (shuffle : Shuffle) (p : FindDhtValuePacket) :
    responseTo pool dht shuffle (.findDhtValue p) =
      some (if values p.key = [] then notFoundResponse pool p
        else foundResponse p (values p.key)) := by
  have hget := DhtStore.get_of_holds h p.key
  by_cases hnil : values p.key = []
  · rw [if_pos hnil] at hget
    rw [if_pos hnil, responseTo, onPacket, hget]
  · rw [if_neg hnil] at hget
    rw [if_neg hnil, responseTo, onPacket, hget]

/-- **The answers to FindPeer and FindDhtValue.**  The peers that are answered are the nearest
ones of the pool, as many as both limits and the pool allow; the values are the first that
were set for the key; and the requester's `on_packet` takes all of these answers. -/
theorem find_answers_nearest (pool : ConnectionPool) (calls : List StoreCall)
    (shuffle : Shuffle) :
    (∀ p : FindPeerPacket, ∃ peers,
      responseTo pool (.after calls) shuffle (.findPeer p) =
          some (.findPeerResp { requestId := p.requestId, peers }) ∧
        AreNearest pool p.peerId
          (min (min maxDhtPeersReturned p.limit).toNat pool.peers.length) peers) ∧
    (∀ p : FindDhtValuePacket, DhtStore.valuesSet calls p.key = [] → ∃ peers,
      responseTo pool (.after calls) shuffle (.findDhtValue p) =
          some (.findDhtValueResp { requestId := p.requestId, result := .notFound peers }) ∧
        AreNearest pool p.key
          (min (min maxDhtPeersReturned p.limitPeers).toNat pool.peers.length) peers) ∧
    (∀ p : FindDhtValuePacket, DhtStore.valuesSet calls p.key ≠ [] →
      responseTo pool (.after calls) shuffle (.findDhtValue p) =
        some (.findDhtValueResp
          { requestId := p.requestId
            result := .found ((DhtStore.valuesSet calls p.key).take
              (min maxDhtValuesReturned p.limitValues).toNat) })) ∧
    ∀ request response, (∃ p, request = .findPeer p) ∨ (∃ p, request = .findDhtValue p) →
      responseTo pool (.after calls) shuffle request = some response →
        ∀ pool' dht' shuffle',
          onPacket pool' dht' shuffle' response = some (.fire response, dht') := by
  have hholds := DhtStore.holds_after calls
  refine ⟨fun p => ?_, fun p hnil => ?_, fun p hset => ?_, ?_⟩
  · exact ⟨_, responseTo_findPeer pool _ shuffle p, nearestPeers_areNearest pool p.peerId p.limit⟩
  · refine ⟨_, ?_, nearestPeers_areNearest pool p.key p.limitPeers⟩
    rw [responseTo_findDhtValue hholds, if_pos hnil]
    rfl
  · rw [responseTo_findDhtValue hholds, if_neg hset]
    rfl
  · have hpeers : ∀ key limit,
        (nearestPeers pool key limit).length ≤ maxDhtPeersReturned.toNat := by
      intro key limit
      rw [(nearestPeers_areNearest pool key limit).length, toNat_min]
      omega
    rintro request response (⟨p, rfl⟩ | ⟨p, rfl⟩) hresponse pool' dht' shuffle'
    · cases hresponse
      exact onPacket_of_short (decide_eq_true (hpeers _ _))
    · rw [responseTo_findDhtValue hholds] at hresponse
      cases hresponse
      split
      · exact onPacket_of_short (decide_eq_true (hpeers _ _))
      · refine onPacket_of_short (decide_eq_true ((List.length_take_le _ _).trans ?_))
        rw [toNat_min]
        exact min_le_left _ _

/-! ### Discovery -/

/-- `Vec::remove`. -/
def vecRemove {α : Type} (values : List α) (i : ℕ) : Option (List α) :=
  if i < values.length then some (values.eraseIdx i) else none

/-- The last loop of `prepare_discover_peers_response`, where `remove` may panic; with
at most `n` rounds. -/
def removeLoop {α : Type} (maxLen : ℕ) : ℕ → List α → Option (List α)
  | 0, peers => if maxLen < peers.length then none else some peers
  | n + 1, peers =>
    if maxLen < peers.length then (vecRemove peers (maxLen * 2 / 3)).bind (removeLoop maxLen n)
    else some peers

/-- **The loop never indexes out of range**, and as many rounds as there are peers suffice. -/
theorem removeLoop_eq {α : Type} (maxLen : ℕ) : ∀ (n : ℕ) (peers : List α), peers.length ≤ n →
    removeLoop maxLen n peers = some (removeMiddle maxLen peers) := by
  intro n
  induction n with
  | zero =>
    intro peers hlen
    have hle : ¬ maxLen < peers.length := by omega
    rw [removeLoop, removeMiddle, if_neg hle, if_neg hle]
  | succ n ih =>
    intro peers hlen
    rw [removeLoop, removeMiddle]
    by_cases hlt : maxLen < peers.length
    · have hindex : maxLen * 2 / 3 < peers.length := by omega
      rw [if_pos hlt, if_pos hlt, vecRemove, if_pos hindex, Option.bind_some]
      refine ih _ ?_
      rw [List.length_eraseIdx_of_lt hindex]
      omega
    · rw [if_neg hlt, if_neg hlt]

/-- What is left of a list that is too long: two thirds from its beginning, one from its end. -/
theorem removeMiddle_of_lt {α : Type} {maxLen : ℕ} {peers : List α} (h : maxLen < peers.length) :
    removeMiddle maxLen peers =
      peers.take (maxLen * 2 / 3) ++ peers.drop (peers.length - (maxLen - maxLen * 2 / 3)) := by
  have hsplit : peers = peers.take (maxLen * 2 / 3) ++
      ((peers.drop (maxLen * 2 / 3)).take (peers.length - maxLen) ++
        peers.drop (peers.length - (maxLen - maxLen * 2 / 3))) := by
    have hdrop : peers.drop (peers.length - (maxLen - maxLen * 2 / 3)) =
        (peers.drop (maxLen * 2 / 3)).drop (peers.length - maxLen) := by
      rw [List.drop_drop]
      congr 1
      omega
    rw [hdrop, List.take_append_drop, List.take_append_drop]
  conv_lhs => rw [hsplit]
  refine removeMiddle_append ?_ ?_
  · rw [List.length_take]
    omega
  · rw [List.length_take, List.length_drop]
    omega

theorem mem_matchingPeers {pool : ConnectionPool} {target : PeerID} {mask : Mask}
    {e : PeerID × String} :
    e ∈ pool.matchingPeers target mask ↔
      e ∈ pool.peersWithAddrs ∧ e.1.matches target mask = true := by
  rw [matchingPeers_eq_filter pool fun _ => Iff.rfl, List.mem_filter, decide_eq_true_iff]

/-- The peers of the shuffled list that are left are different, connected and match. -/
theorem of_sublist_shuffle {pool : ConnectionPool} {target : PeerID} {mask : Mask}
    (shuffle : Shuffle) {peers : List (PeerID × String)}
    (h : peers.Sublist (shuffle.apply (pool.matchingPeers target mask))) :
    (peers.map Prod.fst).Nodup ∧
      ∀ e ∈ peers, e ∈ pool.peersWithAddrs ∧ e.1.matches target mask = true := by
  have hperm := shuffle.perm (pool.matchingPeers target mask)
  have hnodup : ((pool.matchingPeers target mask).map Prod.fst).Nodup := by
    rw [matchingPeers_eq_filter pool fun _ => Iff.rfl]
    exact List.pairwise_map.mpr ((nodup_peersWithAddrs pool).filter _)
  refine ⟨((hperm.map Prod.fst).nodup_iff.mpr hnodup).sublist (h.map Prod.fst), fun e he => ?_⟩
  exact mem_matchingPeers.mp (hperm.mem_iff.mp (h.subset he))

/-- **An answer to a DiscoverPeers** lists the matching peers in shuffled order, or as many as
are allowed of them: the first two thirds from the beginning of that order and the others from
its end. -/
theorem discovery_answer_keeps_both_ends (pool : ConnectionPool) (shuffle : Shuffle)
    (p : DiscoverPeersPacket) (h : p.mask.length ≤ 32) :
    let m := shuffle.apply (pool.matchingPeers p.target ⟨p.mask, h⟩)
    let k := (min p.limit maxDiscoveryPeersReturned).toNat
    ∃ peers, pool.prepareDiscoverPeersResponse shuffle.apply p h =
        { requestId := p.requestId, peers } ∧
      removeLoop k m.length m = some peers ∧ (m.length ≤ k → peers = m) ∧
      (k < m.length → peers = m.take (k * 2 / 3) ++ m.drop (m.length - (k - k * 2 / 3))) ∧
      peers.length = min k m.length ∧ (peers.map Prod.fst).Nodup ∧
      (∀ e ∈ peers, e ∈ pool.peersWithAddrs ∧ e.1.matches p.target ⟨p.mask, h⟩ = true) ∧
      ∀ pool' dht shuffle',
        onPacket pool' dht shuffle' (.discoverPeersResp { requestId := p.requestId, peers }) =
          some (.fire (.discoverPeersResp { requestId := p.requestId, peers }), dht) := by
  intro m k
  have hshort : m.length ≤ k → removeMiddle k m = m := by
    intro hle
    rw [removeMiddle, if_neg (Nat.not_lt.mpr hle)]
  have hlong : k < m.length → removeMiddle k m =
      m.take (k * 2 / 3) ++ m.drop (m.length - (k - k * 2 / 3)) := removeMiddle_of_lt
  have hlength : (removeMiddle k m).length = min k m.length := by
    rcases Nat.lt_or_ge k m.length with hlt | hle
    · rw [hlong hlt, List.length_append, List.length_take, List.length_drop]
      omega
    · rw [hshort hle]
      omega
  obtain ⟨hnodup, hmem⟩ := of_sublist_shuffle shuffle (removeMiddle_sublist k m)
  refine ⟨removeMiddle k m, rfl, removeLoop_eq k _ m le_rfl, hshort, hlong, hlength, hnodup, hmem,
    fun pool' dht shuffle' => onPacket_of_short (decide_eq_true ?_)⟩
  have hk : k ≤ maxDiscoveryPeersReturned.toNat := (toNat_min _ _).trans_le (min_le_right _ _)
  rw [hlength]
  exact (min_le_left _ _).trans hk

/-- A pool with one peer more than is asked for below. -/
def fourPeers : ConnectionPool :=
  ((((ConnectionPool.new (.ofByte 0)).insert (.ofByte 1) ⟨"local-1", 0, none, 0⟩).insert
    (.ofByte 2) ⟨"local-2", 0, none, 0⟩).insert (.ofByte 3) ⟨"local-3", 0, none, 0⟩).insert
    (.ofByte 4) ⟨"local-4", 0, none, 0⟩

/-- Three peers are asked for under the empty mask, and the third of the shuffled four goes. -/
theorem discovery_answer_keeps_both_ends_four :
    ∃ peers, fourPeers.prepareDiscoverPeersResponse List.reverse
        { requestId := 0, target := .ofByte 0, mask := [], limit := 3 } (Nat.zero_le 32) =
        { requestId := 0, peers } ∧
      peers = [(.ofByte 4, "local-4"), (.ofByte 3, "local-3"), (.ofByte 1, "local-1")] := by
  have hmatching : fourPeers.matchingPeers (.ofByte 0) ⟨[], Nat.zero_le 32⟩ =
      [(.ofByte 1, "local-1"), (.ofByte 2, "local-2"), (.ofByte 3, "local-3"),
        (.ofByte 4, "local-4")] := by decide
  obtain ⟨peers, hpeers, -, -, hlong, -⟩ := discovery_answer_keeps_both_ends fourPeers
    ⟨List.reverse, List.reverse_perm⟩
    { requestId := 0, target := .ofByte 0, mask := [], limit := 3 } (Nat.zero_le 32)
  refine ⟨peers, hpeers, ?_⟩
  rw [hmatching] at hlong
  exact hlong (by decide)

end Tewta
