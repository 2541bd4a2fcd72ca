import Tewta.Node.Connections
import Tewta.Peers.Bucket
import Tewta.Peers.Distance

/-!
# Discovery requests

`discover_peers_in_bucket` asks connected peers for members of one bucket of
this node.  `discoverPeersRequest` is the packet it sends, and
`discoverPeersRequest_selects_bucket` is what that packet means to the peer
that answers it: the peers its filter lets through are the ones the requester
would file in that bucket, and the requester is not among them.
-/

namespace Tewta

open PeerID

/-- The request `discover_peers_in_bucket` makes of its target and its mask. -/
def discoverPeersRequest (self : PeerID) (bucketLevel bucketId : ℕ) (requestId : UInt32) :
    Option DiscoverPeersPacket :=
  (self.generateInBucket bucketLevel bucketId).map fun target =>
    { requestId, target, mask := levelMask bucketLevel, limit := maxDiscoveryPeersReturned }

theorem levelMask_length_le {bucketLevel : ℕ} (hl : bucketLevel < 128) :
    (levelMask bucketLevel).length ≤ 32 := by
  rw [levelMask_length]
  omega

/-- **Matching the generated target under the level's mask is being in the
bucket.** -/
theorem matches_generateInBucket_iff {a target : PeerID} {l k : ℕ} (hl : l < 128) (hk : k < 3)
    (ht : a.generateInBucket l k = some target) (x : PeerID) :
    x.matches target ⟨levelMask l, levelMask_length_le hl⟩ = true ↔ x.bucket a = some (l, k) := by
  rw [generateInBucket_eq _ hl hk, Option.some.injEq] at ht
  subst ht
  have hbytes := matchesBytes_modify_iff (Nat.mod_lt l (by norm_num)) hk (l / 4) 0
    x.bytes.toList a.bytes.toList (by simp) (by simp; omega)
  have hlevel : 4 * (0 + l / 4) + l % 4 = l := by omega
  rw [hlevel] at hbytes
  exact hbytes

theorem matchingPeers_eq_filter (pool : ConnectionPool) {target : PeerID} {mask : Mask}
    {p : PeerID → Prop} [DecidablePred p] (h : ∀ x : PeerID, x.matches target mask = true ↔ p x) :
    pool.matchingPeers target mask = pool.peersWithAddrs.filter (fun e => p e.1) := by
  rw [ConnectionPool.matchingPeers, ConnectionPool.peersWithAddrs, List.filter_map]
  refine congrArg _ (List.filter_congr fun e _ => ?_)
  exact Bool.eq_iff_iff.mpr ((h e.1).trans (by simp))

/-- **The requester and the responder agree on buckets.** -/
theorem discoverPeersRequest_selects_bucket (a : PeerID) (l k : ℕ) (requestId : UInt32)
    (hl : l < 128) (hk : k < 3) :
    ∃ (p : DiscoverPeersPacket) (h : p.mask.length ≤ 32),
      discoverPeersRequest a l k requestId = some p ∧
      a.generateInBucket l k = some p.target ∧ p.mask = levelMask l ∧
      (∀ x : PeerID, x.matches p.target ⟨p.mask, h⟩ = true ↔ x.bucket a = some (l, k)) ∧
      ∀ pool : ConnectionPool,
        pool.matchingPeers p.target ⟨p.mask, h⟩ =
            pool.peersWithAddrs.filter (fun e => e.1.bucket a = some (l, k)) ∧
          ∀ addr, (a, addr) ∉ pool.matchingPeers p.target ⟨p.mask, h⟩ := by
  have ht := generateInBucket_eq a hl hk
  have hm := matches_generateInBucket_iff hl hk ht
  refine ⟨_, levelMask_length_le hl, by rw [discoverPeersRequest, ht]; rfl, ht, rfl, hm,
    fun pool => ?_⟩
  have hf := matchingPeers_eq_filter pool hm
  refine ⟨hf, fun addr hmem => ?_⟩
  rw [hf, List.mem_filter, bucket_self] at hmem
  simp at hmem

/-- The last bucket of the last level, for the id of zeros. -/
theorem discoverPeersRequest_selects_bucket_last :
    ∃ (p : DiscoverPeersPacket) (h : p.mask.length ≤ 32),
      discoverPeersRequest ⟨⟨List.replicate 32 0, rfl⟩⟩ 127 2 0 = some p ∧
      ∀ x : PeerID, x.matches p.target ⟨p.mask, h⟩ = true ↔
        x.bucket ⟨⟨List.replicate 32 0, rfl⟩⟩ = some (127, 2) := by
  obtain ⟨p, h, hp, -, -, hx, -⟩ := discoverPeersRequest_selects_bucket
    ⟨⟨List.replicate 32 0, rfl⟩⟩ 127 2 0 (by norm_num) (by norm_num)
  exact ⟨p, h, hp, hx⟩

end Tewta
