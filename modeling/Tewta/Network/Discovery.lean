import Tewta.Network
import Tewta.Node.DiscoverPeers.Dials
import Tewta.Node.DiscoverPeers.Ending

/-!
# Discovery in a network

A peer looks for others of one of its buckets, and everybody works with it: the providers
answer out of their pools, and who is dialled can be reached.  A response either has all the
matching peers of the provider, or as many as are allowed, which is more than a bucket needs.
All of them join the pool of the peer or were there before.  So in the end, if nobody has left
meanwhile, the bucket is full or it has everybody that the providers know of
(`discovery_fills_bucket`).
-/

namespace Tewta

open ConnectionPool DiscoveryStage Discovery PeerID Transition

/-- **The answer to a discovery** has all the matching peers, or as many as are allowed. -/
theorem responseTo_discover {pool : ConnectionPool} {dht : DhtStore} {shuffle : Shuffle}
    {target : PeerID} {mask : Mask} {requestId : UInt32} {resp : DiscoverPeersRespPacket}
    (h : responseTo pool dht shuffle ((Question.discoverPeers target mask.bytes).packet requestId) =
      some (.discoverPeersResp resp)) :
    (resp.peers.map Prod.fst).Nodup ∧
      (∀ e ∈ resp.peers, e ∈ pool.peersWithAddrs ∧ e.1.matches target mask = true) ∧
      (resp.peers.length = maxDiscoveryPeersReturned.toNat ∨
        ∀ e ∈ pool.matchingPeers target mask, e ∈ resp.peers) := by
  let matching := shuffle.apply (pool.matchingPeers target mask)
  have hpeers : resp.peers = removeMiddle maxDiscoveryPeersReturned.toNat matching := by
    rw [Question.packet, responseTo, onPacket, dif_pos mask.length_le] at h
    cases h
    show removeMiddle (min maxDiscoveryPeersReturned maxDiscoveryPeersReturned).toNat _ = _
    rw [toNat_min, min_self]
  have hsub : (removeMiddle maxDiscoveryPeersReturned.toNat matching).Sublist
      (shuffle.apply (pool.matchingPeers target mask)) := removeMiddle_sublist _ _
  obtain ⟨hnodup, hmem⟩ := of_sublist_shuffle shuffle hsub
  rw [hpeers]
  refine ⟨hnodup, hmem, ?_⟩
  rcases Nat.lt_or_ge maxDiscoveryPeersReturned.toNat matching.length with hlt | hle
  · refine Or.inl ?_
    rw [removeMiddle_of_lt hlt, List.length_append, List.length_take, List.length_drop]
    omega
  · refine Or.inr fun e he => ?_
    rw [removeMiddle, if_neg (Nat.not_lt.mpr hle)]
    exact (shuffle.perm _).mem_iff.mpr he

namespace DiscoveryStage

/-- The candidate that is being dialled. -/
def dialling? : DiscoveryStage → Option (PeerID × String)
  | .connecting candidate => some candidate
  | .handshaking candidate => some candidate
  | _ => none

/-- The provider whose response has not arrived yet. -/
def awaited? : DiscoveryStage → Option PeerID
  | .awaiting provider _ => some provider
  | _ => none

end DiscoveryStage

/-- A step in which the others work with it: the bucket is not too large when it is counted,
who is dialled can be reached, and who is asked answers out of its pool. -/
def Cooperates (pools : PeerID → ConnectionPool) (s : Discovery) :
    ConnectionPool × DiscoveryLabel → Prop
  | (pool, .count) =>
    (pool.peersOnBucket s.bucketLevel s.bucketId).length ≤ kademliaBucketSize
  | (_, .connect outcome) => outcome = .connected
  | (_, .handshake result) => ∃ n, result = .ok n
  | (_, .ask _ writes) => writes = true
  | (_, .receive n resp) => s.stage = .awaiting n resp.requestId → ∃ dht shuffle,
    responseTo (pools n) dht shuffle
        ((Question.discoverPeers s.target s.mask.bytes).packet resp.requestId) =
      some (.discoverPeersResp resp)
  | _ => True

/-- A response that has come has all the matching peers of a pool, or as many as are allowed. -/
def Covered (pool : ConnectionPool) (s : Discovery) : Prop :=
  ∃ peers : List (PeerID × String), (peers.map Prod.fst).Nodup ∧ (∀ c ∈ peers, c ∈ s.suggested) ∧
    (peers.length = maxDiscoveryPeersReturned.toNat ∨
      ∀ e ∈ pool.matchingPeers s.target s.mask, e ∈ peers)

/-- What is kept as long as everybody works with it, and `final` has who was met. -/
structure Met (net : Network) (pools : PeerID → ConnectionPool) (ourPeerId : PeerID)
    (final : ConnectionPool) (s : Discovery) : Prop where
  inv : DiscoveryInv s
  aims : Aims ourPeerId s
  reason : EndsWithReason s
  working : s.stage ≠ .panicked
  dialled : s.dialled.map Prod.fst = s.discovered ++ (s.stage.dialling?.map Prod.fst).toList
  suggested : ∀ c ∈ s.suggested, c ∈ net.pairs ∧ c.1.matches s.target s.mask = true
  skipped : ∀ c ∈ s.skipped, c.1 ∈ final.peers
  discovered : ∀ n ∈ s.discovered, n ∈ final.peers
  answered : ∀ n ∈ s.asked, s.stage.awaited? ≠ some n → Covered (pools n) s

variable {net : Network} {pools : PeerID → ConnectionPool} {self : PeerID} {final : ConnectionPool}
  {overflowChecks : Bool} {s s' : Discovery} {pool : ConnectionPool} {l : DiscoveryLabel}

/-- Steps in which everybody works with it end nothing early. -/
theorem endsAtLast_of_cooperates (h : Cooperates pools s (pool, l)) :
    EndsAtLast overflowChecks s (pool, l) := by
  cases l with
  | count =>
    intro hnone
    rw [missingPeersOf_of_le overflowChecks h] at hnone
    cases hnone
  | connect outcome =>
    obtain rfl : outcome = .connected := h
    trivial
  | handshake result =>
    obtain ⟨n, rfl⟩ := h
    trivial
  | ask requestId writes =>
    obtain rfl : writes = true := h
    trivial
  | _ => trivial

theorem working_of_step (hworking : s.stage ≠ .panicked) (hcoop : Cooperates pools s (pool, l))
    (h : s.step overflowChecks (pool, l) = some s') : s'.stage ≠ .panicked := by
  cases step_cases h with
  | overflows _ hnone =>
    rw [missingPeersOf_of_le overflowChecks hcoop] at hnone
    cases hnone
  | connectPanics _ => cases hcoop
  | askPanics _ => cases hcoop
  | ignores _ _ => exact hworking
  | repeats _ _ _ _ => exact hworking
  | _ => rintro ⟨⟩

/-- **Who is dialled is discovered**, one after the other. -/
theorem dialled_of_step
    (hdialled : s.dialled.map Prod.fst = s.discovered ++ (s.stage.dialling?.map Prod.fst).toList)
    (hcoop : Cooperates pools s (pool, l)) (h : s.step overflowChecks (pool, l) = some s') :
    s'.dialled.map Prod.fst = s'.discovered ++ (s'.stage.dialling?.map Prod.fst).toList := by
  cases step_cases h with
  | @dials candidate hstage _ =>
    rw [hstage] at hdialled
    show (List.map Dial.pair (s.dials ++ [_])).map Prod.fst = s.discovered ++ [candidate.1]
    rw [List.map_append, List.map_append]
    exact congrArg (· ++ [candidate.1]) (hdialled.trans (List.append_nil _))
  | @connects candidate hstage =>
    rw [hstage] at hdialled
    exact hdialled
  | fails _ => cases hcoop
  | connectPanics _ => cases hcoop
  | @discovers candidate hstage =>
    rw [hstage] at hdialled
    exact hdialled.trans (List.append_nil _).symm
  | givesUp _ =>
    obtain ⟨n, hn⟩ := hcoop
    cases hn
  | ignores _ _ => exact hdialled
  | _ =>
    refine hdialled.trans ?_
    simp [*, dialling?]

theorem suggested_of_step (hpools : ∀ n, ∀ p ∈ (pools n).peersWithAddrs, p ∈ net.pairs)
    (hsuggested : ∀ c ∈ s.suggested, c ∈ net.pairs ∧ c.1.matches s.target s.mask = true)
    (hcoop : Cooperates pools s (pool, l)) (h : s.step overflowChecks (pool, l) = some s') :
    ∀ c ∈ s'.suggested, c ∈ net.pairs ∧ c.1.matches s'.target s'.mask = true := by
  cases step_cases h with
  | @receives provider resp hstage =>
    obtain ⟨dht, shuffle, hresponse⟩ := hcoop hstage
    obtain ⟨-, hmem, -⟩ := responseTo_discover hresponse
    intro c hc
    rcases List.mem_append.mp hc with hc | hc
    · exact hsuggested c hc
    · exact ⟨hpools provider c (hmem c hc).1, (hmem c hc).2⟩
  | _ => exact hsuggested

theorem skipped_of_step (hskipped : ∀ c ∈ s.skipped, c.1 ∈ final.peers)
    (hpool : pool.peers ⊆ final.peers) (h : s.step overflowChecks (pool, l) = some s') :
    ∀ c ∈ s'.skipped, c.1 ∈ final.peers := by
  cases step_cases h with
  | @skips candidate hstage hcontains =>
    intro c hc
    rcases List.mem_append.mp hc with hc | hc
    · exact hskipped c hc
    · rw [List.mem_singleton.mp hc]
      exact hpool (by rw [ConnectionPool.peers, Std.ExtTreeMap.mem_keys]; exact hcontains)
  | _ => exact hskipped

theorem discovered_of_step (hdiscovered : ∀ n ∈ s.discovered, n ∈ final.peers)
    (hinserted : ∀ n, l = .handshake (.ok n) → n ∈ final.peers)
    (h : s.step overflowChecks (pool, l) = some s') : ∀ n ∈ s'.discovered, n ∈ final.peers := by
  cases step_cases h with
  | @discovers candidate hstage =>
    intro n hn
    rcases List.mem_append.mp hn with hn | hn
    · exact hdiscovered n hn
    · rw [List.mem_singleton.mp hn]
      exact hinserted _ rfl
  | _ => exact hdiscovered

/-- **Who was asked has answered**, unless it is waited for. -/
theorem answered_of_step
    (hanswered : ∀ n ∈ s.asked, s.stage.awaited? ≠ some n → Covered (pools n) s)
    (hcoop : Cooperates pools s (pool, l)) (h : s.step overflowChecks (pool, l) = some s') :
    ∀ n ∈ s'.asked, s'.stage.awaited? ≠ some n → Covered (pools n) s' := by
  cases step_cases h with
  | @asks provider requestId hstage =>
    intro n hn hne
    rcases List.mem_append.mp hn with hn | hn
    · exact hanswered n hn (by rw [hstage]; rintro ⟨⟩)
    · rw [List.mem_singleton.mp hn] at hne
      exact absurd rfl hne
  | askPanics _ => cases hcoop
  | @receives provider resp hstage =>
    intro n hn _
    by_cases heq : n = provider
    · subst heq
      obtain ⟨dht, shuffle, hresponse⟩ := hcoop hstage
      obtain ⟨hnodup, -, hall⟩ := responseTo_discover hresponse
      exact ⟨resp.peers, hnodup, fun c hc => List.mem_append_right _ hc, hall⟩
    · have hne : s.stage.awaited? ≠ some n := by
        rw [hstage]
        intro h
        exact heq (Option.some.inj h).symm
      obtain ⟨peers, hnodup, hmem, hall⟩ := hanswered n hn hne
      exact ⟨peers, hnodup, fun c hc => List.mem_append_left _ (hmem c hc), hall⟩
  | ignores _ _ => exact hanswered
  | _ =>
    intro n hn _
    exact hanswered n hn (by simp [*, awaited?])

theorem Met.step (hpools : ∀ n, ∀ p ∈ (pools n).peersWithAddrs, p ∈ net.pairs)
    (inv : Met net pools self final s) (hcoop : Cooperates pools s (pool, l))
    (hpool : pool.peers ⊆ final.peers) (hinserted : ∀ n, l = .handshake (.ok n) → n ∈ final.peers)
    (h : s.step overflowChecks (pool, l) = some s') : Met net pools self final s' where
  inv := inv.inv.step h
  aims := inv.aims.step h
  reason := (endsWithReason_of_step inv.inv h).mpr (endsAtLast_of_cooperates hcoop)
  working := working_of_step inv.working hcoop h
  dialled := dialled_of_step inv.dialled hcoop h
  suggested := suggested_of_step hpools inv.suggested hcoop h
  skipped := skipped_of_step inv.skipped hpool h
  discovered := discovered_of_step inv.discovered hinserted h
  answered := answered_of_step inv.answered hcoop h

theorem Met.start {bucketLevel bucketId : ℕ}
    (h : Discovery.start self bucketLevel bucketId = some s) : Met net pools self final s := by
  have hinv := DiscoveryInv.start h
  have haims := aims_of_start h
  rw [Discovery.start] at h
  split at h
  · obtain ⟨target, -, rfl⟩ := Option.map_eq_some_iff.mp h
    refine ⟨hinv, haims, ?_, ?_, rfl, ?_, ?_, ?_, ?_⟩
    · rintro ⟨⟩
    · rintro ⟨⟩
    · rintro c ⟨⟩
    · rintro c ⟨⟩
    · rintro n ⟨⟩
    · rintro n ⟨⟩
  · cases h

/-! ### The bucket in the end -/

theorem Met.mem_peersOnBucket (inv : Met net pools self final s) (hfinal : final.ourPeerId = self)
    {n : PeerID} (hn : n ∈ final.peers) (hmatches : n.matches s.target s.mask = true) :
    n ∈ final.peersOnBucket s.bucketLevel s.bucketId := by
  refine (final.mem_peersOnBucket (b := (s.bucketLevel, s.bucketId))).mpr ⟨hn, ?_⟩
  rw [hfinal]
  exact (inv.aims n).mp hmatches

theorem Met.mem_of_suggested (inv : Met net pools self final s) (hfinal : final.ourPeerId = self)
    (hended : s.stage.isEnded = true) (hall : TriedAll s) {c : PeerID × String}
    (hc : c ∈ s.suggested) : c.1 ∈ final.peersOnBucket s.bucketLevel s.bucketId := by
  refine inv.mem_peersOnBucket hfinal ?_ (inv.suggested c hc).2
  rcases hall.2 c hc with hdialled | hskipped
  · have hmem := List.mem_map_of_mem (f := Prod.fst) hdialled
    have hnone : s.stage.dialling? = none := by
      cases hstage : s.stage with
      | connecting candidate =>
        rw [hstage] at hended
        cases hended
      | handshaking candidate =>
        rw [hstage] at hended
        cases hended
      | _ => rfl
    rw [inv.dialled, hnone, Option.map_none, Option.toList_none, List.append_nil] at hmem
    exact inv.discovered _ hmem
  · exact inv.skipped c hskipped

/-- **Everybody was tried**: the bucket is full, or has whom a provider has. -/
theorem Met.full_or_covers (inv : Met net pools self final s) (hfinal : final.ourPeerId = self)
    (hended : s.stage.isEnded = true) (hall : TriedAll s) {n : PeerID} (hn : n ∈ s.listed) :
    kademliaBucketSize ≤ (final.peersOnBucket s.bucketLevel s.bucketId).length ∨
      ∀ m ∈ (pools n).peers, m.bucket self = some (s.bucketLevel, s.bucketId) →
        m ∈ final.peersOnBucket s.bucketLevel s.bucketId := by
  have hawaited : s.stage.awaited? ≠ some n := by
    intro hstage
    cases hs : s.stage with
    | awaiting provider requestId =>
      rw [hs] at hended
      cases hended
    | _ =>
      rw [hs] at hstage
      cases hstage
  obtain ⟨peers, hnodup, hmem, hfull | hcovers⟩ := inv.answered n (hall.1 n hn) hawaited
  · left
    have hsub : peers.map Prod.fst ⊆ final.peersOnBucket s.bucketLevel s.bucketId := by
      intro m hm
      obtain ⟨c, hc, rfl⟩ := List.mem_map.mp hm
      exact inv.mem_of_suggested hfinal hended hall (hmem c hc)
    have hlen := (hnodup.subperm hsub).length_le
    rw [List.length_map, hfull] at hlen
    exact le_trans (by decide) hlen
  · refine Or.inr fun m hm hbucket => ?_
    obtain ⟨addr, hmem'⟩ := exists_mem_peersWithAddrs hm
    refine inv.mem_of_suggested hfinal hended hall (c := (m, addr)) (hmem _ (hcovers _ ?_))
    exact mem_matchingPeers.mpr ⟨hmem', (inv.aims m).mpr hbucket⟩

theorem Met.mem_suggested_of_dialled (inv : Met net pools self final s) {c : PeerID × String}
    (hc : c ∈ s.dialled) : c ∈ s.suggested := by
  refine (inv.inv.candidates.suggested c).mpr (Or.inr (inv.inv.candidates.perm.mem_iff.mp ?_))
  exact List.mem_append_right _ (List.mem_append_right _ hc)

/-- A peer has one address, so nobody is discovered twice. -/
theorem Met.nodup_discovered (inv : Met net pools self final s) : s.discovered.Nodup := by
  have hnodup : (s.dialled.map Prod.fst).Nodup := by
    refine inv.inv.candidates.nodup_dialled.map_on fun c hc c' hc' heq => ?_
    obtain ⟨n, -, rfl⟩ := Finset.mem_image.mp (inv.suggested c (inv.mem_suggested_of_dialled hc)).1
    obtain ⟨n', -, rfl⟩ :=
      Finset.mem_image.mp (inv.suggested c' (inv.mem_suggested_of_dialled hc')).1
    obtain rfl : n = n' := heq
    rfl
  rw [inv.dialled] at hnodup
  exact (List.nodup_append.mp hnodup).1

/-- Who is dialled was not there when the peers were counted. -/
theorem new_of_step {counted : ConnectionPool} (hnew : ∀ c ∈ s.dialled, c.1 ∉ counted.peers)
    (hpool : counted.peers ⊆ pool.peers) (h : s.step overflowChecks (pool, l) = some s') :
    ∀ c ∈ s'.dialled, c.1 ∉ counted.peers := by
  cases step_cases h with
  | @dials candidate hstage hcontains =>
    intro c hc
    rw [Discovery.dialled, List.map_append, List.mem_append] at hc
    rcases hc with hc | hc
    · exact hnew c hc
    · rw [List.mem_singleton.mp hc]
      intro hmem
      have hmem' := hpool hmem
      rw [ConnectionPool.peers, Std.ExtTreeMap.mem_keys, ← Std.ExtTreeMap.contains_iff_mem] at hmem'
      rw [ConnectionPool.contains, hmem'] at hcontains
      cases hcontains
  | _ => exact hnew

/-- **Nobody is missing any more**: the bucket is full. -/
theorem Met.full_of_missing (inv : Met net pools self final s) (hfinal : final.ourPeerId = self)
    {counted : ConnectionPool} (hcounted : counted.ourPeerId = self)
    (hsub : counted.peers ⊆ final.peers) (hnew : ∀ c ∈ s.dialled, c.1 ∉ counted.peers)
    (hmissing : (counted.peersOnBucket s.bucketLevel s.bucketId).length + s.discovered.length =
      kademliaBucketSize) :
    kademliaBucketSize ≤ (final.peersOnBucket s.bucketLevel s.bucketId).length := by
  have hdialled : ∀ n ∈ s.discovered, ∃ c ∈ s.dialled, c.1 = n := by
    intro n hn
    have hmem : n ∈ s.dialled.map Prod.fst := by
      rw [inv.dialled]
      exact List.mem_append_left _ hn
    exact List.mem_map.mp hmem
  have hnodup : (counted.peersOnBucket s.bucketLevel s.bucketId ++ s.discovered).Nodup := by
    refine List.nodup_append.mpr ⟨counted.nodup_peers.filter _, inv.nodup_discovered, ?_⟩
    rintro n hn m hm rfl
    obtain ⟨c, hc, rfl⟩ := hdialled n hm
    exact hnew c hc (List.mem_of_mem_filter hn)
  have hmem : counted.peersOnBucket s.bucketLevel s.bucketId ++ s.discovered ⊆
      final.peersOnBucket s.bucketLevel s.bucketId := by
    intro n hn
    rcases List.mem_append.mp hn with hn | hn
    · obtain ⟨hn, hbucket⟩ :=
        (counted.mem_peersOnBucket (b := (s.bucketLevel, s.bucketId))).mp hn
      refine (final.mem_peersOnBucket (b := (s.bucketLevel, s.bucketId))).mpr ⟨hsub hn, ?_⟩
      rw [hfinal, ← hcounted]
      exact hbucket
    · obtain ⟨c, hc, rfl⟩ := hdialled n hn
      exact inv.mem_peersOnBucket hfinal (inv.discovered _ hn)
        (inv.suggested c (inv.mem_suggested_of_dialled hc)).2
  rw [← hmissing, ← List.length_append]
  exact (hnodup.subperm hmem).length_le

theorem exists_count {s₀ : Discovery} {labels : List (ConnectionPool × DiscoveryLabel)}
    (hrun : exec (Discovery.step overflowChecks) s₀ labels = some s) (h₀ : s₀.missing = none)
    (hs : s.missing ≠ none) : ∃ pre counted post u n, labels = pre ++ (counted, .count) :: post ∧
      exec (Discovery.step overflowChecks) s₀ pre = some u ∧ u.stage = .counting ∧
      missingPeersOf overflowChecks
        (counted.peersOnBucket u.bucketLevel u.bucketId).length = some n ∧
      exec (Discovery.step overflowChecks)
        { u with missingPeers := n, stage := .looping, missing := some n } post = some s := by
  obtain ⟨pre, ⟨counted, l⟩, post, u, v, rfl, hpre, hu, hstep, hv, hpost⟩ :=
    exists_step_of_exec (P := fun t : Discovery => t.missing ≠ none) hrun (fun h => h h₀) hs
  cases step_cases hstep with
  | @count n hstage hn => exact ⟨pre, counted, post, u, n, rfl, hpre, hstage, hn, hpost⟩
  | _ => exact absurd hv hu

theorem bucket_of_run {bucketLevel bucketId : ℕ} {s₀ : Discovery}
    (hstart : Discovery.start self bucketLevel bucketId = some s₀)
    {labels : List (ConnectionPool × DiscoveryLabel)}
    (h : exec (Discovery.step overflowChecks) s₀ labels = some s) :
    s.bucketLevel = bucketLevel ∧ s.bucketId = bucketId := by
  refine invariant_of_exec (I := fun t => t.bucketLevel = bucketLevel ∧ t.bucketId = bucketId)
    (fun t e t' ht h => ?_) h (bucket_of_start hstart)
  obtain ⟨pool, l⟩ := e
  obtain ⟨hlevel, hid, -, -⟩ := aim_of_step h
  rw [hlevel, hid]
  exact ht

/-- **A discovery that has ended** has filled its bucket, or has everybody in it that one of
the providers was connected to. -/
theorem full_or_covers_of_ended (net : Network)
    (hpools : ∀ n, ∀ p ∈ (pools n).peersWithAddrs, p ∈ net.pairs)
    {bucketLevel bucketId : ℕ} {s₀ : Discovery}
    (hstart : Discovery.start self bucketLevel bucketId = some s₀)
    {labels : List (ConnectionPool × DiscoveryLabel)}
    (hrun : exec (Discovery.step overflowChecks) s₀ labels = some s)
    (hcoop : Meets (Discovery.step overflowChecks) (Cooperates pools) s₀ labels)
    (hself : ∀ pool ∈ labels.map Prod.fst ++ [final], pool.ourPeerId = self)
    (hgrows : (labels.map Prod.fst ++ [final]).Pairwise fun p q => p.peers ⊆ q.peers)
    (hinserted : ∀ pool n, (pool, DiscoveryLabel.handshake (.ok n)) ∈ labels → n ∈ final.peers)
    (hended : s.stage.isEnded = true) :
    s.stage = .returned ∧
      (kademliaBucketSize ≤ (final.peersOnBucket bucketLevel bucketId).length ∨
        ∀ n ∈ s.listed, ∀ m ∈ (pools n).peers, m.bucket self = some (bucketLevel, bucketId) →
          m ∈ final.peersOnBucket bucketLevel bucketId) := by
  have hfinal : final.ourPeerId = self := hself final (by simp)
  have hsub : ∀ e ∈ labels, e.1.peers ⊆ final.peers := fun e he =>
    (List.pairwise_append.mp hgrows).2.2 e.1 (List.mem_map_of_mem he) final
      (List.mem_singleton_self _)
  let ok : Discovery → ConnectionPool × DiscoveryLabel → Prop := fun s e =>
    Cooperates pools s e ∧
      (e.1.peers ⊆ final.peers ∧ ∀ n, e.2 = .handshake (.ok n) → n ∈ final.peers)
  have hmeets : Meets (Discovery.step overflowChecks) ok s₀ labels := by
    refine hcoop.and (meets_of_forall fun e he _ => ⟨hsub e he, fun n hn => ?_⟩)
    refine hinserted e.1 n ?_
    rw [← hn]
    exact he
  have hkept : ∀ s e t, Met net pools self final s → ok s e →
      Discovery.step overflowChecks s e = some t → Met net pools self final t :=
    fun s e t inv hok h => inv.step (l := e.2) hpools hok.1 hok.2.1 hok.2.2 h
  have inv₀ : Met net pools self final s₀ := Met.start hstart
  have inv := invariant_of_meets hkept hmeets hrun inv₀
  obtain ⟨rfl, rfl⟩ := bucket_of_run hstart hrun
  have hreturned : s.stage = .returned := by
    cases hstage : s.stage with
    | returned => rfl
    | panicked => exact absurd hstage inv.working
    | _ =>
      rw [hstage] at hended
      cases hended
  refine ⟨hreturned, ?_⟩
  rcases inv.reason hended with hmissing | hall
  · -- the pools from the count on have all that were counted
    have h₀ := (inv₀.inv.missing.fresh (by rw [(fresh_of_start hstart).1]; rfl)).1
    obtain ⟨pre, counted, post, u, n, rfl, hpre, hstage, hn, hpost⟩ :=
      exists_count hrun h₀ (by rw [hmissing]; rintro ⟨⟩)
    have invu := invariant_of_meets hkept hmeets.append_left hpre inv₀
    obtain ⟨hok, hmeets'⟩ := hmeets.append_right hpre
    let v : Discovery := { u with missingPeers := n, stage := .looping, missing := some n }
    have invv : Met net pools self final v := hkept u (counted, .count) v invu hok
      (by simp only [Discovery.step, hstage, hn]; rfl)
    have hsome := invv.inv.missing.missing_of_exec rfl hpost
    obtain rfl := Option.some.inj (hmissing.symm.trans hsome)
    rw [missingPeersOf_of_le overflowChecks hok.1, Option.some.injEq] at hn
    obtain ⟨hlevel, hid⟩ := bucket_of_run hstart hpre
    have hlater : ∀ e ∈ post, counted.peers ⊆ e.1.peers := by
      intro e he
      rw [List.map_append, List.map_cons, List.append_assoc, List.cons_append] at hgrows
      exact List.rel_of_pairwise_cons (List.pairwise_append.mp hgrows).2.1
        (List.mem_append_left _ (List.mem_map_of_mem he))
    have hdialled : u.dialled = [] := by
      have hfresh := (invu.inv.missing.fresh (by rw [hstage]; rfl)).2
      have hempty := invu.dialled
      rw [hfresh, hstage] at hempty
      exact List.map_eq_nil_iff.mp hempty
    have hnew : ∀ c ∈ s.dialled, c.1 ∉ counted.peers := by
      have hlater' : Meets (Discovery.step overflowChecks) (fun _ e => counted.peers ⊆ e.1.peers)
          v post := meets_of_forall fun e he _ => hlater e he
      refine invariant_of_meets (I := fun s : Discovery => ∀ c ∈ s.dialled, c.1 ∉ counted.peers)
        (fun s e t hnew hok h => ?_) hlater' hpost ?_
      · obtain ⟨pool, l⟩ := e
        exact new_of_step hnew hok h
      intro c hc
      have hc' : c ∈ u.dialled := hc
      rw [hdialled] at hc'
      cases hc'
    refine Or.inl (inv.full_of_missing hfinal (hself counted (by simp))
      (hsub (counted, .count) (by simp)) hnew ?_)
    have hle : (counted.peersOnBucket u.bucketLevel u.bucketId).length ≤ kademliaBucketSize := hok.1
    rw [hlevel, hid] at hn hle
    omega
  · by_cases hfull : kademliaBucketSize ≤
      (final.peersOnBucket s.bucketLevel s.bucketId).length
    · exact Or.inl hfull
    · exact Or.inr fun n hn => (inv.full_or_covers hfinal hended hall hn).resolve_left hfull

theorem ne_of_step (h : s.step overflowChecks (pool, l) = some s')
    (hl : ∀ n resp, l = .receive n resp → s.stage = .awaiting n resp.requestId) : s' ≠ s := by
  rintro rfl
  rcases Discovery.rank_lt_of_step h with
    hlt | ⟨-, provider, requestId, n, resp, hstage, rfl, hne⟩
  · exact lt_irrefl _ hlt
  · rw [hl n resp rfl] at hstage
    cases hstage
    exact hne ⟨rfl, rfl⟩

/-- A discovery that has not ended can go on with the others working with it. -/
theorem exists_cooperating (pools : PeerID → ConnectionPool) (overflowChecks : Bool)
    (hended : s.stage.isEnded = false)
    (hroom : (pool.peersOnBucket s.bucketLevel s.bucketId).length ≤ kademliaBucketSize) :
    ∃ l s', Cooperates pools s (pool, l) ∧ s.step overflowChecks (pool, l) = some s' ∧ s' ≠ s := by
  suffices h : ∃ l, Cooperates pools s (pool, l) ∧ s.step overflowChecks (pool, l) ≠ none ∧
      ∀ n resp, l = .receive n resp → s.stage = .awaiting n resp.requestId by
    obtain ⟨l, hcoop, hstep, hl⟩ := h
    obtain ⟨s', hs'⟩ := Option.ne_none_iff_exists'.mp hstep
    exact ⟨l, s', hcoop, hs', ne_of_step hs' hl⟩
  cases hstage : s.stage with
  | listing => exact ⟨.list, trivial, by simp [Discovery.step, hstage], by rintro _ _ ⟨⟩⟩
  | counting =>
    refine ⟨.count, hroom, ?_, by rintro _ _ ⟨⟩⟩
    simp [Discovery.step, hstage, missingPeersOf_of_le overflowChecks hroom]
  | looping => exact ⟨.turn, trivial, by simp [Discovery.step, hstage], by rintro _ _ ⟨⟩⟩
  | checking candidate =>
    exact ⟨.check, trivial, by simp [Discovery.step, hstage], by rintro _ _ ⟨⟩⟩
  | connecting candidate =>
    exact ⟨.connect .connected, rfl, by simp [Discovery.step, hstage], by rintro _ _ ⟨⟩⟩
  | handshaking candidate =>
    exact ⟨.handshake (.ok candidate.1), ⟨_, rfl⟩, by simp [Discovery.step, hstage],
      by rintro _ _ ⟨⟩⟩
  | asking provider => exact ⟨.ask 0 true, rfl, by simp [Discovery.step, hstage], by rintro _ _ ⟨⟩⟩
  | awaiting provider requestId =>
    -- the provider answers out of its pool
    refine ⟨.receive provider ((pools provider).prepareDiscoverPeersResponse
      (default : Shuffle).apply ⟨requestId, s.target, s.mask.bytes, maxDiscoveryPeersReturned⟩
      s.mask.length_le), fun _ => ⟨.empty, default, ?_⟩, by simp [Discovery.step, hstage], ?_⟩
    · rw [Question.packet, responseTo, onPacket, dif_pos s.mask.length_le]
      rfl
    · rintro _ _ ⟨⟩
      rfl
  | returned =>
    rw [hstage] at hended
    cases hended
  | panicked =>
    rw [hstage] at hended
    cases hended

/-- **A discovery fills its bucket.**  It ends if the responses that it waits for arrive.  If
the bucket has no more than eight peers when they are counted, who is dialled can be reached, what
is sent is written, and who is asked answers out of its pool, then it can go on like this until
it has ended.  And if nobody leaves the pool meanwhile it has returned by then, and the bucket has
eight peers, or everybody in it that one of the providers was connected to. -/
theorem discovery_fills_bucket (net : Network) (pools : PeerID → ConnectionPool)
    (hpools : ∀ n, ∀ p ∈ (pools n).peersWithAddrs, p ∈ net.pairs) (overflowChecks : Bool)
    {self : PeerID} {bucketLevel bucketId : ℕ} {s₀ : Discovery}
    (hstart : Discovery.start self bucketLevel bucketId = some s₀) :
    (∀ (run : ℕ → Discovery) (labels : ℕ → ConnectionPool × DiscoveryLabel), run 0 = s₀ →
      (∀ n provider requestId, (run n).stage = .awaiting provider requestId →
        ∃ m, n ≤ m ∧ ∃ resp, resp.requestId = requestId ∧ (labels m).2 = .receive provider resp) →
      ∃ n, (run n).step overflowChecks (labels n) ≠ some (run (n + 1))) ∧
    ∀ labels s, exec (Discovery.step overflowChecks) s₀ labels = some s →
      Meets (Discovery.step overflowChecks) (Cooperates pools) s₀ labels →
      (s.stage.isEnded = false → ∀ pool,
        (pool.peersOnBucket bucketLevel bucketId).length ≤ kademliaBucketSize →
        ∃ l s', Cooperates pools s (pool, l) ∧ s.step overflowChecks (pool, l) = some s' ∧
          s' ≠ s) ∧
      ∀ final : ConnectionPool, (∀ pool ∈ labels.map Prod.fst ++ [final], pool.ourPeerId = self) →
        (labels.map Prod.fst ++ [final]).Pairwise (fun p q => p.peers ⊆ q.peers) →
        (∀ pool n, (pool, DiscoveryLabel.handshake (.ok n)) ∈ labels → n ∈ final.peers) →
        s.stage.isEnded = true →
        s.stage = .returned ∧
          (kademliaBucketSize ≤ (final.peersOnBucket bucketLevel bucketId).length ∨
            ∀ n ∈ s.listed, ∀ m ∈ (pools n).peers, m.bucket self = some (bucketLevel, bucketId) →
              m ∈ final.peersOnBucket bucketLevel bucketId) := by
  refine ⟨fun run labels _ harrives => Discovery.exists_stop run labels harrives,
    fun labels s hrun hcoop => ⟨fun hended pool hroom => ?_, fun final hself hgrows hinserted =>
      full_or_covers_of_ended net hpools hstart hrun hcoop hself hgrows hinserted⟩⟩
  obtain ⟨hlevel, hid⟩ := bucket_of_run hstart hrun
  refine exists_cooperating pools overflowChecks hended ?_
  rwa [hlevel, hid]

/-! ### One peer is found -/

/-- The provider of the examples and the peer that it knows. -/
def acquainted : Network where
  members := {.ofByte 192, .ofByte 64}
  addr n := if n = .ofByte 192 then "local-0" else "local-1"

def acquaintedPool : ConnectionPool :=
  (ConnectionPool.new (.ofByte 192)).insert (.ofByte 64) ⟨"local-1", 0, none, 0⟩

theorem responseTo_acquainted {s : Discovery} (haims : Aims (.ofByte 0) s)
    (hlevel : s.bucketLevel = 0) (hid : s.bucketId = 0) :
    responseTo acquaintedPool .empty default
        ((Question.discoverPeers s.target s.mask.bytes).packet 0) =
      some (.discoverPeersResp ⟨0, [(.ofByte 64, "local-1")]⟩) := by
  have hmatches : (PeerID.ofByte 64).matches s.target s.mask = true := by
    rw [haims, hlevel, hid]
    decide
  have hmatching : acquaintedPool.matchingPeers s.target s.mask = [(.ofByte 64, "local-1")] := by
    rw [matchingPeers_eq_filter _ fun _ => Iff.rfl, acquaintedPool, peersWithAddrs_insert_new]
    simp [hmatches]
  have hshort : removeMiddle (min maxDiscoveryPeersReturned maxDiscoveryPeersReturned).toNat
      [(PeerID.ofByte 64, "local-1")] = [(.ofByte 64, "local-1")] := by
    rw [removeMiddle, if_neg (by decide)]
  rw [Question.packet, responseTo, onPacket, dif_pos s.mask.length_le]
  simp only [prepareDiscoverPeersResponse, hmatching]
  show some (Packet.discoverPeersResp ⟨0, removeMiddle _ [(PeerID.ofByte 64, "local-1")]⟩) = _
  rw [hshort]

/-- The peer that the provider knows has joined. -/
theorem discovery_fills_bucket_findsOne : ∃ s₀ s,
    Discovery.start (.ofByte 0) 0 0 = some s₀ ∧ exec (Discovery.step true) s₀ findsOne = some s ∧
      s.listed = [.ofByte 192] ∧
      (kademliaBucketSize ≤ (joinedPool.peersOnBucket 0 0).length ∨
        ∀ n ∈ s.listed, ∀ m ∈ acquaintedPool.peers, m.bucket (.ofByte 0) = some (0, 0) →
          m ∈ joinedPool.peersOnBucket 0 0) := by
  obtain ⟨s₀, hstart⟩ := exists_start_first
  obtain ⟨s, hrun, hreturned, hlisted, -⟩ := exec_findsOne true hstart
  have hgrows : lonePool.peers ⊆ joinedPool.peers := by
    intro n hn
    rw [mem_peers] at hn ⊢
    rw [joinedPool, getElem?_insert]
    split
    · rintro ⟨⟩
    · exact hn
  refine ⟨s₀, s, hstart, hrun, hlisted,
    (((discovery_fills_bucket acquainted (fun _ => acquaintedPool) (fun _ p hp => ?_) true
      hstart).2 _ _ hrun ?_).2 joinedPool ?_ ?_ ?_ (by rw [hreturned]; rfl)).2⟩
  · rw [acquaintedPool, peersWithAddrs_insert_new, List.mem_singleton] at hp
    subst hp
    decide
  · refine meets_of_invariant
      (I := fun s => Aims (.ofByte 0) s ∧ s.bucketLevel = 0 ∧ s.bucketId = 0)
      (fun s e t inv h => ?_) (fun e he s inv => ?_) ⟨aims_of_start hstart, bucket_of_start hstart⟩
    · obtain ⟨pool, l⟩ := e
      obtain ⟨hlevel, hid, -, -⟩ := aim_of_step h
      refine ⟨inv.1.step h, ?_⟩
      rw [hlevel, hid]
      exact inv.2
    · simp only [findsOne, asksOne, dialsOne, meetsOne, List.cons_append, List.nil_append,
        List.mem_cons, List.not_mem_nil, or_false] at he
      rcases he with rfl | rfl | rfl | rfl | rfl | rfl | rfl | rfl | rfl | rfl
      · trivial
      · refine (List.length_filter_le _ _).trans (le_trans (b := 1) ?_ (by decide))
        exact (congrArg List.length (peers_insert_new (.ofByte 0) (.ofByte 192) _)).le
      · trivial
      · rfl
      · exact fun _ => ⟨.empty, default, responseTo_acquainted inv.1 inv.2.1 inv.2.2⟩
      · trivial
      · trivial
      · rfl
      · exact ⟨_, rfl⟩
      · trivial
  · intro pool hpool
    simp only [findsOne, asksOne, dialsOne, meetsOne, List.map_cons, List.map_nil,
      List.cons_append, List.nil_append, List.mem_cons, List.not_mem_nil, or_false] at hpool
    rcases hpool with h | h | h | h | h | h | h | h | h | h | h <;> (subst h; rfl)
  · simp [findsOne, asksOne, dialsOne, meetsOne, hgrows]
  · intro pool n hn
    rw [eq_of_met_findsOne hn, mem_peers, joinedPool, getElem?_insert, if_pos rfl]
    rintro ⟨⟩

end Tewta
