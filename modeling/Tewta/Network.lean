import Tewta.Node.Answers
import Tewta.Node.Buckets
import Tewta.Node.DhtSearch.Ending
import Tewta.Node.Requests

/-!
# A network of nodes

The members of a network answer each other out of their pools and stores, and what their
pools list are other members at the addresses they listen at.

The lookups rely on the shape of the pools.  Two ids that are in one bucket of a third have
the first digit that differs from the third's in common, so they are nearer to each other
than the third is to either (`distanceNat_lt_of_bucket_eq`): a peer that is connected to
anybody in the bucket of a key knows somebody nearer to the key than itself.  This is what
`LeadsTo` asks for, and the answer of such a peer goes on towards the key
(`exists_nearer_of_leadsTo`), as long as less than thirty-two peers do not respond.
-/

namespace Tewta

open ConnectionPool PeerID

namespace PeerID

/-- **Ids in one bucket of a third are nearer to each other than to it.** -/
theorem distanceNat_lt_of_bucket_eq {a b c : PeerID} {l k : ℕ} (hb : b.bucket a = some (l, k))
    (hc : c.bucket a = some (l, k)) : b.distanceNat c < a.distanceNat c := by
  obtain ⟨-, -, hb⟩ := bucket_spec hb
  obtain ⟨-, -, hc⟩ := bucket_spec hc
  have hxor : b.distanceNat c = b.distanceNat a ^^^ c.distanceNat a := by
    simp only [distanceNat_eq_xor]
    rw [Nat.xor_assoc, Nat.xor_comm (ByteString.ofBe c.bytes.toList), ← Nat.xor_assoc
      (ByteString.ofBe a.bytes.toList), Nat.xor_self, Nat.zero_xor]
  have hpow : (4 : ℕ) ^ (127 - l) = 2 ^ (2 * (127 - l)) := by
    rw [pow_mul]
    norm_num
  rw [hpow, ← Nat.shiftRight_eq_div_pow] at hb hc
  -- the leading digits are equal, and cancel
  have hzero : (b.distanceNat a ^^^ c.distanceNat a) >>> (2 * (127 - l)) = 0 := by
    rw [Nat.shiftRight_xor_distrib, hb, hc, Nat.xor_self]
  rw [Nat.shiftRight_eq_div_pow, Nat.div_eq_zero_iff_lt (by positivity)] at hzero
  rw [distanceNat_comm a c, hxor]
  refine hzero.trans_le ?_
  by_contra hlt
  rw [Nat.shiftRight_eq_div_pow, Nat.div_eq_of_lt (not_le.mp hlt)] at hc
  omega

end PeerID

/-- **The answer to a lookup** is made of the values or of the nearest peers. -/
theorem responseTo_lookup (pool : ConnectionPool) (calls : List StoreCall) (shuffle : Shuffle)
    (requestId : UInt32) (key : KeyID) :
    responseTo pool (.after calls) shuffle ((Question.findDhtValue key).packet requestId) =
      some (.findDhtValueResp
        { requestId
          result :=
            if DhtStore.valuesSet calls key = [] then
              .notFound (nearestPeers pool key maxDhtPeersReturned)
            else .found ((DhtStore.valuesSet calls key).take maxDhtValuesReturned.toNat) }) := by
  refine (responseTo_findDhtValue (DhtStore.holds_after calls) pool shuffle _).trans ?_
  show some (if DhtStore.valuesSet calls key = [] then _ else _) = _
  split
  · rfl
  · rw [foundResponse, toNat_min, min_self]

namespace ConnectionPool

theorem exists_mem_peersWithAddrs {pool : ConnectionPool} {n : PeerID} (h : n ∈ pool.peers) :
    ∃ addr, (n, addr) ∈ pool.peersWithAddrs := by
  obtain ⟨info, hinfo⟩ := Option.ne_none_iff_exists'.mp (pool.mem_peers.mp h)
  exact ⟨info.addr, List.mem_map.mpr
    ⟨(n, info), Std.ExtTreeMap.mem_toList_iff_getElem?_eq_some.mpr hinfo, rfl⟩⟩

end ConnectionPool

/-- The members of a network, and the addresses they listen at. -/
structure Network where
  members : Finset PeerID
  addr : PeerID → String

namespace Network

variable (net : Network) (failing : Finset PeerID) (key : KeyID) (held : PeerID → List DhtValue)

/-- The pairs that the pools of the members may have. -/
def pairs : Finset (PeerID × String) := net.members.image fun n => (n, net.addr n)

variable {net} in
theorem mem_members_of_mem_pairs {p : PeerID × String} (h : p ∈ net.pairs) :
    p.1 ∈ net.members := by
  obtain ⟨n, hn, rfl⟩ := Finset.mem_image.mp h
  exact hn

/-- A pool that leads to a key: it has members only, and in the bucket of the key one that
responds. -/
structure LeadsTo (pool : ConnectionPool) : Prop where
  pairs : ∀ p ∈ pool.peersWithAddrs, p ∈ net.pairs
  covers : ∀ b : ℕ × ℕ, key.bucket pool.ourPeerId = some b →
    ∃ n ∈ pool.peersOnBucket b.1 b.2, n ∉ failing

/-- What a member may answer to a lookup, out of the pool and the store it has then.  The
values that it will have are known, and the peer that has the key for its id has some. -/
def IsAnswer (n : PeerID) (result : DhtLookupResult) : Prop :=
  ∃ (pool : ConnectionPool) (calls : List StoreCall) (shuffle : Shuffle) (requestId : UInt32),
    pool.ourPeerId = n ∧ net.LeadsTo failing key pool ∧
    DhtStore.valuesSet calls key <+: held n ∧ (n = key → DhtStore.valuesSet calls key ≠ []) ∧
    responseTo pool (.after calls) shuffle ((Question.findDhtValue key).packet requestId) =
      some (.findDhtValueResp { requestId, result })

/-- What a lookup on a member comes to: an answer, or an error if the member is failing. -/
def MayResult (n : PeerID) (result : Except SingleProviderLookupError DhtLookupResult) : Prop :=
  (∃ e, result = .error e) ∧ n ∈ failing ∨
    ∃ r, result = .ok r ∧ net.IsAnswer failing key held n r

variable {net failing key held}

theorem LeadsTo.exists_responding {pool : ConnectionPool} (h : net.LeadsTo failing key pool)
    (hne : pool.ourPeerId ≠ key) :
    ∃ p ∈ pool.peersWithAddrs, p.1 ∉ failing ∧
      p.1.distanceNat key < pool.ourPeerId.distanceNat key := by
  obtain ⟨l, k, hbucket, -, -⟩ := bucket_of_ne hne.symm
  obtain ⟨n, hn, hresponds⟩ := h.covers (l, k) hbucket
  obtain ⟨hn, hbucket'⟩ := pool.mem_peersOnBucket.mp hn
  obtain ⟨addr, hmem⟩ := exists_mem_peersWithAddrs hn
  exact ⟨(n, addr), hmem, hresponds, distanceNat_lt_of_bucket_eq hbucket' hbucket⟩

/-- A pool with one peer leads to the keys in its bucket. -/
theorem leadsTo_insert_new {ourPeerId n : PeerID} (hn : n ∈ net.members) (hresponds : n ∉ failing)
    (hbucket : ∀ b, key.bucket ourPeerId = some b → n.bucket ourPeerId = some b) :
    net.LeadsTo failing key
      ((ConnectionPool.new ourPeerId).insert n ⟨net.addr n, 0, none, 0⟩) := by
  refine ⟨fun p hp => ?_, fun b hb => ⟨n, mem_peersOnBucket _ |>.mpr ⟨?_, hbucket b hb⟩,
    hresponds⟩⟩
  · rw [peersWithAddrs_insert_new] at hp
    rw [List.mem_singleton.mp hp]
    exact Finset.mem_image_of_mem _ hn
  · rw [mem_peers, getElem?_insert, if_pos rfl]
    rintro ⟨⟩

/-- **The nearest peers go on towards the key.**  Less than thirty-two peers do not respond,
so they cannot take all the places. -/
theorem exists_nearer_of_leadsTo {pool : ConnectionPool} (h : net.LeadsTo failing key pool)
    (hfailing : failing.card < 32) (hne : pool.ourPeerId ≠ key) :
    ∃ p ∈ nearestPeers pool key maxDhtPeersReturned, p.1 ∉ failing ∧
      p.1.distanceNat key < pool.ourPeerId.distanceNat key := by
  obtain ⟨q, hq, hresponds, hlt⟩ := h.exists_responding hne
  have hnearest := nearestPeers_areNearest pool key maxDhtPeersReturned
  by_cases hmem : q ∈ nearestPeers pool key maxDhtPeersReturned
  · exact ⟨q, hmem, hresponds, hlt⟩
  -- whoever has a place is nearer than the peer that has none
  have hp : ∃ p ∈ nearestPeers pool key maxDhtPeersReturned, p.1 ∉ failing := by
    by_contra hall
    have hsub : ((nearestPeers pool key maxDhtPeersReturned).map Prod.fst).toFinset ⊆ failing := by
      intro n hn
      obtain ⟨p, hp, rfl⟩ := List.mem_map.mp (List.mem_toFinset.mp hn)
      by_contra hresponds
      exact hall ⟨p, hp, hresponds⟩
    have hcard := Finset.card_le_card hsub
    rw [List.toFinset_card_of_nodup hnearest.nodup, List.length_map, hnearest.length, toNat_min,
      min_self, ← length_peersWithAddrs] at hcard
    have hlimit : maxDhtPeersReturned.toNat = 32 := rfl
    refine hmem ?_
    rw [nearestPeers, toNat_min, min_self, List.take_of_length_le]
    · exact mem_sortByDistance.mpr hq
    · rw [sortByDistance, List.length_mergeSort]
      omega
  obtain ⟨p, hp, hp'⟩ := hp
  exact ⟨p, hp, hp', (hnearest.nearest p hp q hq hmem).trans hlt⟩

/-- **What is answered** are values that the member holds, or peers some of which are nearer
to the key and respond. -/
theorem IsAnswer.cases {n : PeerID} {result : DhtLookupResult} (hfailing : failing.card < 32)
    (h : net.IsAnswer failing key held n result) :
    (∃ values, result = .found values ∧ values ≠ [] ∧ values <+: held n) ∨
      ∃ peers, result = .notFound peers ∧ (∀ p ∈ peers, p ∈ net.pairs) ∧
        ∃ p ∈ peers, p.1 ∉ failing ∧ p.1.distanceNat key < n.distanceNat key := by
  obtain ⟨pool, calls, shuffle, requestId, rfl, hpool, hheld, howner, hresponse⟩ := h
  rw [responseTo_lookup] at hresponse
  cases hresponse
  by_cases hnil : DhtStore.valuesSet calls key = []
  · have hne : pool.ourPeerId ≠ key := fun h => howner h hnil
    refine Or.inr ⟨_, if_pos hnil, fun p hp => hpool.pairs p ?_,
      exists_nearer_of_leadsTo hpool hfailing hne⟩
    exact (nearestPeers_areNearest pool key _).connected p hp
  · refine Or.inl ⟨_, if_neg hnil, fun htake => hnil ?_, (List.take_prefix _ _).trans hheld⟩
    have hlimit : maxDhtValuesReturned.toNat ≠ 0 := by decide
    exact (List.take_eq_nil_iff.mp htake).resolve_left hlimit

theorem MayResult.sound {n : PeerID} {result : Except SingleProviderLookupError DhtLookupResult}
    (hfailing : failing.card < 32) (h : net.MayResult failing key held n result) :
    (∀ p ∈ suggestions result, p ∈ net.pairs) ∧
      ∀ values, result = .ok (.found values) → values ≠ [] ∧ values <+: held n := by
  rcases h with ⟨⟨e, rfl⟩, -⟩ | ⟨r, rfl, hanswer⟩
  · refine ⟨fun p hp => ?_, fun values hv => ?_⟩
    · cases hp
    · cases hv
  · rcases hanswer.cases hfailing with ⟨values, rfl, hvalues⟩ | ⟨peers, rfl, hpeers, -⟩
    · refine ⟨fun p hp => ?_, fun values' hv => ?_⟩
      · cases hp
      · cases hv
        exact hvalues
    · refine ⟨hpeers, fun values hv => ?_⟩
      cases hv

end Network

end Tewta
