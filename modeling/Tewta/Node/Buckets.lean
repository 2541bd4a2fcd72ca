import Tewta.Handshake.Agreement
import Tewta.Node.Joining
import Tewta.Peers.Bucket

/-!
# The buckets of the pool

`peers_on_bucket` files the peers of the pool by the classifier.  An id has a
bucket as soon as it is not the id of the node itself, and the pool never has that
one, so the buckets are a partition of the pool: `buckets_partition_pool` says so
of every state that a node can reach, whatever the remotes send.
-/

namespace Tewta

open Duplex NodeState PeerID

variable {PrivateKey Seed : Type} {crates : Crates Bytes PrivateKey Seed}

/-- The buckets of the levels below a level, in the order of `refresh_buckets`. -/
def bucketsBelow (bucketLevel : ℕ) : List (ℕ × ℕ) := List.range bucketLevel ×ˢ List.range 3

theorem mem_bucketsBelow {bucketLevel : ℕ} {b : ℕ × ℕ} :
    b ∈ bucketsBelow bucketLevel ↔ b.1 < bucketLevel ∧ b.2 < 3 := by
  rw [bucketsBelow, List.mem_product, List.mem_range, List.mem_range]

theorem nodup_bucketsBelow (bucketLevel : ℕ) : (bucketsBelow bucketLevel).Nodup :=
  List.nodup_range.product List.nodup_range

namespace ConnectionPool

variable (pool : ConnectionPool)

theorem nodup_peers : pool.peers.Nodup := Std.ExtTreeMap.nodup_keys

theorem mem_peers {n : PeerID} : n ∈ pool.peers ↔ pool.connections[n]? ≠ none := by
  rw [peers, Std.ExtTreeMap.mem_keys, ← Std.ExtTreeMap.isSome_getElem?_iff_mem,
    Option.isSome_iff_ne_none]

theorem mem_peersOnBucket {n : PeerID} {b : ℕ × ℕ} :
    n ∈ pool.peersOnBucket b.1 b.2 ↔ n ∈ pool.peers ∧ n.bucket pool.ourPeerId = some b := by
  rw [peersOnBucket, List.mem_filter, peers]
  refine and_congr_right fun _ => ?_
  cases n.bucket pool.ourPeerId with
  | none => simp
  | some b' => simp

theorem mem_peersOnBucketAndUnder {n : PeerID} {l : ℕ} :
    n ∈ pool.peersOnBucketAndUnder l ↔
      n ∈ pool.peers ∧ ∃ b, n.bucket pool.ourPeerId = some b ∧ b.1 ≤ l := by
  rw [peersOnBucketAndUnder, List.mem_filter, peers]
  refine and_congr_right fun _ => ?_
  cases n.bucket pool.ourPeerId with
  | none => simp
  | some b' => simp

/-- The buckets of a list of buckets, one after the other. -/
def peersOnBuckets (buckets : List (ℕ × ℕ)) : List PeerID :=
  buckets.flatMap fun b => pool.peersOnBucket b.1 b.2

theorem mem_peersOnBuckets {n : PeerID} {buckets : List (ℕ × ℕ)} :
    n ∈ pool.peersOnBuckets buckets ↔
      n ∈ pool.peers ∧ ∃ b ∈ buckets, n.bucket pool.ourPeerId = some b := by
  rw [peersOnBuckets, List.mem_flatMap]
  constructor
  · rintro ⟨b, hb, hn⟩
    obtain ⟨hn, hbucket⟩ := pool.mem_peersOnBucket.mp hn
    exact ⟨hn, b, hb, hbucket⟩
  · rintro ⟨hn, b, hb, hbucket⟩
    exact ⟨b, hb, pool.mem_peersOnBucket.mpr ⟨hn, hbucket⟩⟩

theorem nodup_peersOnBuckets {buckets : List (ℕ × ℕ)} (h : buckets.Nodup) :
    (pool.peersOnBuckets buckets).Nodup := by
  rw [peersOnBuckets, List.nodup_flatMap]
  refine ⟨fun b _ => pool.nodup_peers.filter _, h.imp fun hne n hn hn' => ?_⟩
  obtain ⟨-, hb⟩ := pool.mem_peersOnBucket.mp hn
  obtain ⟨-, hb'⟩ := pool.mem_peersOnBucket.mp hn'
  exact hne (Option.some.inj (hb.symm.trans hb'))

/-- **The buckets of a pool that lacks the node itself** are all of it. -/
theorem perm_peersOnBuckets (hself : pool.ourPeerId ∉ pool.peers) :
    (pool.peersOnBuckets (bucketsBelow 128)).Perm pool.peers := by
  refine (List.perm_ext_iff_of_nodup (pool.nodup_peersOnBuckets (nodup_bucketsBelow 128))
    pool.nodup_peers).mpr fun n => ?_
  rw [mem_peersOnBuckets]
  refine and_iff_left_of_imp fun hn => ?_
  have hne : n ≠ pool.ourPeerId := by
    rintro rfl
    exact hself hn
  obtain ⟨l, k, hb, hl, hk⟩ := bucket_of_ne hne
  exact ⟨(l, k), mem_bucketsBelow.mpr ⟨hl, hk⟩, hb⟩

theorem perm_peersOnBucketAndUnder (hself : pool.ourPeerId ∉ pool.peers) (l : ℕ) :
    (pool.peersOnBuckets (bucketsBelow (l + 1))).Perm (pool.peersOnBucketAndUnder l) := by
  have hnodup : (pool.peersOnBucketAndUnder l).Nodup := pool.nodup_peers.filter _
  refine (List.perm_ext_iff_of_nodup (pool.nodup_peersOnBuckets (nodup_bucketsBelow (l + 1)))
    hnodup).mpr fun n => ?_
  rw [mem_peersOnBuckets, mem_peersOnBucketAndUnder]
  refine and_congr_right fun hn => ?_
  have hne : n ≠ pool.ourPeerId := by
    rintro rfl
    exact hself hn
  obtain ⟨l', k, hb, -, hk⟩ := bucket_of_ne hne
  constructor
  · rintro ⟨b, hmem, hbucket⟩
    exact ⟨b, hbucket, Nat.lt_succ_iff.mp (mem_bucketsBelow.mp hmem).1⟩
  · rintro ⟨b, hbucket, hle⟩
    rw [hb] at hbucket
    cases hbucket
    exact ⟨(l', k), mem_bucketsBelow.mpr ⟨Nat.lt_succ_iff.mpr hle, hk⟩, hb⟩

theorem perm_peers_insert {n : PeerID} (peer : PeerInfo) (hn : n ∉ pool.peers) :
    (pool.insert n peer).peers.Perm (n :: pool.peers) := by
  refine (List.perm_ext_iff_of_nodup (nodup_peers _)
    (List.nodup_cons.mpr ⟨hn, pool.nodup_peers⟩)).mpr fun m => ?_
  rw [List.mem_cons, mem_peers, mem_peers, getElem?_insert]
  by_cases heq : n = m
  · simp [heq]
  · simp [heq, Ne.symm heq]

theorem peers_new (ourPeerId : PeerID) : (new ourPeerId).peers = [] := by
  refine List.eq_nil_iff_forall_not_mem.mpr fun n => ?_
  rw [mem_peers, new]
  simp

theorem peersOnBucket_new (ourPeerId : PeerID) (bucketLevel bucketId : ℕ) :
    (new ourPeerId).peersOnBucket bucketLevel bucketId = [] := by
  show (new ourPeerId).peers.filter _ = []
  rw [peers_new, List.filter_nil]

theorem peers_insert_new (ourPeerId n : PeerID) (peer : PeerInfo) :
    ((new ourPeerId).insert n peer).peers = [n] := by
  have hperm := (new ourPeerId).perm_peers_insert peer (n := n)
  rw [peers_new] at hperm
  exact List.perm_singleton.mp (hperm List.not_mem_nil)

theorem peersOnBucketAndUnder_insert_new (ourPeerId n : PeerID) (peer : PeerInfo) {l : ℕ}
    (h : ∃ b, n.bucket ourPeerId = some b ∧ b.1 ≤ l) :
    ((new ourPeerId).insert n peer).peersOnBucketAndUnder l = [n] := by
  obtain ⟨b, hb, hle⟩ := h
  show (((new ourPeerId).insert n peer).peers.filter _) = [n]
  rw [peers_insert_new]
  simp [insert, new, hb, hle]

theorem length_peersOnBucket_insert {n : PeerID} (peer : PeerInfo) (hn : n ∉ pool.peers)
    (b : ℕ × ℕ) :
    ((pool.insert n peer).peersOnBucket b.1 b.2).length = (pool.peersOnBucket b.1 b.2).length +
      if n.bucket pool.ourPeerId = some b then 1 else 0 := by
  have hperm := (pool.perm_peers_insert peer hn).filter fun n =>
    ((n.bucket pool.ourPeerId).map (· == b)).getD false
  refine hperm.length_eq.trans ?_
  rw [List.filter_cons]
  show _ = (pool.peers.filter _).length + _
  cases hbucket : n.bucket pool.ourPeerId with
  | none => simp
  | some b' =>
    by_cases heq : b' = b
    · subst heq
      simp
    · simp [heq]

theorem length_peersOnBucket_remove_le (n : PeerID) (b : ℕ × ℕ) :
    ((pool.remove n).peersOnBucket b.1 b.2).length ≤ (pool.peersOnBucket b.1 b.2).length := by
  have hnodup : ((pool.remove n).peersOnBucket b.1 b.2).Nodup := (nodup_peers _).filter _
  refine (List.subperm_of_subset hnodup fun m hm => ?_).length_le
  obtain ⟨hm, hbucket⟩ := (pool.remove n).mem_peersOnBucket.mp hm
  refine pool.mem_peersOnBucket.mpr ⟨pool.mem_peers.mpr ?_, hbucket⟩
  rw [mem_peers, getElem?_remove] at hm
  split at hm
  · exact absurd rfl hm
  · exact hm

end ConnectionPool

/-! ### Every state that a node reaches -/

/-- **The buckets partition the pool**, whatever the remotes of the handshakes send
and in whichever order connections come and go: the node is not in its own pool,
every peer is in exactly one bucket, all buckets together are the list of peers,
and a level with those under it is the buckets up to it. -/
theorem buckets_partition_pool (identity : Identity crates) {labels : List (JoinLabel Seed)}
    {s : JoinState Seed}
    (hrun : Transition.exec (JoinState.step identity) (.init identity) labels = some s) :
    identity.peerId ∉ s.node.pool.peers ∧
      (∀ n ∈ s.node.pool.peers, ∃! b : ℕ × ℕ, (b.1 < 128 ∧ b.2 < 3) ∧
        n ∈ s.node.pool.peersOnBucket b.1 b.2) ∧
      s.node.pool.peers.Nodup ∧
      ((bucketsBelow 128).flatMap fun b => s.node.pool.peersOnBucket b.1 b.2).Perm
        s.node.pool.peers ∧
      ∀ l, ((bucketsBelow (l + 1)).flatMap fun b => s.node.pool.peersOnBucket b.1 b.2).Perm
        (s.node.pool.peersOnBucketAndUnder l) := by
  have inv := Stranger.exec hrun
  have hself : s.node.pool.ourPeerId ∉ s.node.pool.peers := by
    rw [inv.ourPeerId, ConnectionPool.mem_peers]
    exact fun hmem => hmem inv.pool
  refine ⟨inv.ourPeerId ▸ hself, fun n hn => ?_, s.node.pool.nodup_peers,
    s.node.pool.perm_peersOnBuckets hself, s.node.pool.perm_peersOnBucketAndUnder hself⟩
  have hne : n ≠ s.node.pool.ourPeerId := by
    rintro rfl
    exact hself hn
  obtain ⟨l, k, hb, hl, hk⟩ := bucket_of_ne hne
  refine ⟨(l, k), ⟨⟨hl, hk⟩, s.node.pool.mem_peersOnBucket.mpr ⟨hn, hb⟩⟩, ?_⟩
  rintro b ⟨-, hmem⟩
  obtain ⟨-, hb'⟩ := s.node.pool.mem_peersOnBucket.mp hmem
  exact Option.some.inj (hb'.symm.trans hb)

/-- The right node of the pair is in one bucket of the left node, once it has dialled
it. -/
theorem buckets_partition_pool_pair :
    ∃ labels s, Transition.exec (JoinState.step (pairEnds pairPackets .left).identity)
        (.init (pairEnds pairPackets .left).identity) labels = some s ∧
      ∃! b : ℕ × ℕ, (b.1 < 128 ∧ b.2 < 3) ∧
        (pairEnds pairPackets .right).identity.peerId ∈ s.node.pool.peersOnBucket b.1 b.2 := by
  obtain ⟨course⟩ := exists_course (pair_reliable (fun _ h => h) (by decide))
    (pair_distinct pairPackets)
  have habsent : (NodeState.init (pairEnds pairPackets .left).identity.peerId).pool.connections[
      (pairEnds pairPackets .right).identity.peerId]? = none := by
    simp [NodeState.init, ConnectionPool.new]
  obtain ⟨labels, hrun⟩ := exists_exec_joined (k := .left) (c := 0)
    (s := JoinState.init (pairEnds pairPackets .left).identity) course rfl habsent
  refine ⟨labels, _, hrun, (buckets_partition_pool _ hrun).2.1 _ ?_⟩
  rw [ConnectionPool.mem_peers]
  exact ne_of_eq_of_ne (pool_insertPeer_self _ _ habsent) (by simp)

end Tewta
