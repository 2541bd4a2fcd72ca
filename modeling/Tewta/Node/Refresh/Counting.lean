import Mathlib.Data.List.Nodup
import Tewta.Node.DiscoverPeers.Tried
import Tewta.Node.Refresh

/-!
# Counting the peers of a bucket

`refresh_buckets` starts a discovery for a bucket with less than eight peers, and the discovery
takes the number of them from eight.  In between, the list of providers is taken, other buckets
are looked at, and other tasks run; and `insert` adds a peer to a bucket however many it has.

The system here is calls of `refresh_buckets`, the tasks that they spawn, and peers that come
and go.  No discovery counts more than eight peers if no peer is added to a full bucket of which
a discovery is about to count the peers (`discovery_counts_fit`).
-/

namespace Tewta

open DiscoveryStage PeerID Transition

namespace RefreshState

variable {overflowChecks : Bool} {s s' : RefreshState} {l : RefreshLabel}

/-! ### What is counted -/

/-- A discovery of the bucket is about to be spawned, or has still to count its peers. -/
inductive Pending (s : RefreshState) (b : ℕ × ℕ) : Prop
  | call {c buckets found spawned} : s.calls c = some ⟨b :: buckets, some found, spawned⟩ →
      found < kademliaBucketSize → Pending s b
  | task {t d} : s.tasks t = some d → d.stage.isFresh = true →
      (d.bucketLevel, d.bucketId) = b → Pending s b

/-- No discovery has counted more than eight peers. -/
def CountsFit (s : RefreshState) : Prop := ∀ len ∈ s.counts, len ≤ kademliaBucketSize

/-- No discovery would count more than eight peers if the pool stayed as it is. -/
def CountsWouldFit (s : RefreshState) : Prop := ∀ b, s.Pending b → s.size b ≤ kademliaBucketSize

/-- No peer is added to a full bucket of which a discovery is about to count the peers. -/
def KeepsRoom (s : RefreshState) : RefreshLabel → Prop
  | .insert n _ => ∀ b, s.Pending b → n.bucket s.pool.ourPeerId = some b →
      s.size b < kademliaBucketSize
  | _ => True

theorem size_insert {n : PeerID} (peer : PeerInfo) (hn : n ∉ s.pool.peers) (b : ℕ × ℕ) :
    ({ s with pool := s.pool.insert n peer } : RefreshState).size b =
      s.size b + if n.bucket s.pool.ourPeerId = some b then 1 else 0 :=
  s.pool.length_peersOnBucket_insert peer hn b

theorem size_remove_le (n : PeerID) (b : ℕ × ℕ) :
    ({ s with pool := s.pool.remove n } : RefreshState).size b ≤ s.size b :=
  s.pool.length_peersOnBucket_remove_le n b

theorem Pending.congr {b : ℕ × ℕ} (hb : s'.Pending b) (hcalls : s'.calls = s.calls)
    (htasks : s'.tasks = s.tasks) : s.Pending b := by
  cases hb with
  | call hc hlt => exact .call (hcalls ▸ hc) hlt
  | task ht hfresh heq => exact .task (htasks ▸ ht) hfresh heq

/-- A call is changed: what it is about to spawn a discovery for has the peers that it found. -/
theorem size_le_of_pending {c : ℕ} {call : RefreshCall} {b : ℕ × ℕ} (hwould : s.CountsWouldFit)
    (hb : { s with calls := Function.update s.calls c (some call) }.Pending b)
    (hcall : ∀ buckets found spawned, call = ⟨b :: buckets, some found, spawned⟩ →
      found = s.size b) : s.size b ≤ kademliaBucketSize := by
  cases hb with
  | @call c' buckets found spawned hc hlt =>
    rcases update_eq_cases hc with ⟨-, heq⟩ | ⟨-, hc⟩
    · rw [← hcall buckets found spawned (Option.some.inj heq)]
      exact hlt.le
    · exact hwould b (.call hc hlt)
  | task ht hfresh heq => exact hwould b (.task ht hfresh heq)

theorem pending_of_spawn {c t : ℕ} {b b' : ℕ × ℕ}
    {buckets remaining spawned spawned' : List (ℕ × ℕ)} {found : ℕ} {d : Discovery}
    (hcall : s.calls c = some ⟨b :: buckets, some found, spawned⟩)
    (hlt : found < kademliaBucketSize) (hd : Discovery.start s.pool.ourPeerId b.1 b.2 = some d)
    (hb : { s with
      calls := Function.update s.calls c (some ⟨remaining, none, spawned'⟩)
      tasks := Function.update s.tasks t (some d) }.Pending b') : s.Pending b' := by
  cases hb with
  | call hc hlt' =>
    rcases update_eq_cases hc with ⟨-, heq⟩ | ⟨-, hc⟩
    · cases heq
    · exact .call hc hlt'
  | task ht hfresh heq =>
    rcases update_eq_cases ht with ⟨-, heq'⟩ | ⟨-, ht⟩
    · cases heq'
      obtain ⟨hlevel, hid⟩ := Discovery.bucket_of_start hd
      rw [hlevel, hid] at heq
      subst heq
      exact .call hcall hlt
    · exact .task ht hfresh heq

theorem isFresh_of_step {d d' : Discovery} {pool : ConnectionPool} {l : DiscoveryLabel}
    (h : d.step overflowChecks (pool, l) = some d') (hfresh : d'.stage.isFresh = true) :
    d.stage.isFresh = true := by
  cases Discovery.step_cases h with
  | list hstage => rw [hstage]; rfl
  | ignores _ _ => exact hfresh
  | repeats hstage _ _ _ => exact hfresh
  | _ => cases hfresh

theorem pending_of_task {t : ℕ} {b : ℕ × ℕ} {d d' : Discovery} {counts : List ℕ}
    {l : DiscoveryLabel} (hd : s.tasks t = some d)
    (hstep : d.step overflowChecks (s.pool, l) = some d')
    (hb : { s with tasks := Function.update s.tasks t (some d'), counts }.Pending b) :
    s.Pending b := by
  cases hb with
  | call hc hlt => exact .call hc hlt
  | task ht hfresh heq =>
    rcases update_eq_cases ht with ⟨-, heq'⟩ | ⟨-, ht⟩
    · cases heq'
      obtain ⟨hlevel, hid, -, -⟩ := Discovery.aim_of_step hstep
      rw [hlevel, hid] at heq
      exact .task hd (isFresh_of_step hstep hfresh) heq
    · exact .task ht hfresh heq

theorem counted_le {t : ℕ} {d d' : Discovery} {l : DiscoveryLabel} (hwould : s.CountsWouldFit)
    (hd : s.tasks t = some d) (hstep : d.step overflowChecks (s.pool, l) = some d') :
    ∀ len ∈ s.counted d l, len ≤ kademliaBucketSize := by
  intro len hlen
  have hcounting : d.stage = .counting → s.size (d.bucketLevel, d.bucketId) ≤ kademliaBucketSize :=
    fun hstage => hwould _ (.task hd (by rw [hstage]; rfl) rfl)
  cases Discovery.step_cases hstep with
  | count hstage _ =>
    rw [List.mem_singleton.mp hlen]
    exact hcounting hstage
  | overflows hstage _ =>
    rw [List.mem_singleton.mp hlen]
    exact hcounting hstage
  | _ => cases hlen

/-- **A step keeps the counts within eight** unless it adds a peer where it leaves no room. -/
theorem fits_of_step (hfit : s.CountsFit) (hwould : s.CountsWouldFit)
    (h : s.step overflowChecks l = some s') :
    s'.CountsFit ∧ s'.CountsWouldFit ↔ s.KeepsRoom l := by
  cases step_cases h with
  | @insert n peer hn =>
    rw [and_iff_right (by exact hfit)]
    constructor
    · intro hwould' b hb hbucket
      have hle := hwould' b (hb.congr rfl rfl)
      rw [size_insert peer hn, if_pos hbucket] at hle
      exact hle
    · intro hroom b hb
      have hb : s.Pending b := hb.congr rfl rfl
      rw [size_insert peer hn]
      split
      · rename_i hbucket
        exact hroom b hb hbucket
      · exact hwould b hb
  | @remove n =>
    refine iff_of_true ⟨hfit, fun b hb => ?_⟩ trivial
    exact (size_remove_le n b).trans (hwould b (hb.congr rfl rfl))
  | call hnone =>
    refine iff_of_true ⟨hfit, fun b hb => size_le_of_pending (s := s) hwould hb ?_⟩ trivial
    intro _ _ _ heq
    cases congrArg RefreshCall.found heq
  | look hcall =>
    refine iff_of_true ⟨hfit, fun b hb => size_le_of_pending (s := s) hwould hb ?_⟩ trivial
    intro _ _ _ heq
    cases heq
    rfl
  | spawns hcall hlt hnone hd =>
    exact iff_of_true ⟨hfit, fun b hb => hwould b (pending_of_spawn hcall hlt hd hb)⟩ trivial
  | passes hcall hge =>
    refine iff_of_true ⟨hfit, fun b hb => size_le_of_pending (s := s) hwould hb ?_⟩ trivial
    intro _ _ _ heq
    cases heq
  | task hd hstep =>
    refine iff_of_true ⟨fun len hlen => ?_, fun b hb => ?_⟩ trivial
    · rcases List.mem_append.mp hlen with hlen | hlen
      · exact hfit len hlen
      · exact counted_le hwould hd hstep len hlen
    · exact hwould b (pending_of_task hd hstep hb)

/-! ### Runs -/

theorem exec_spawn (overflowChecks : Bool) {pool : ConnectionPool}
    (hnil : pool.peersOnBucket 0 0 = []) :
    ∃ s d, exec (step overflowChecks) (init pool) [.call 0, .look 0, .turn 0 0] = some s ∧
      s.pool = pool ∧ s.counts = [] ∧ s.tasks 0 = some d ∧ d.stage = .listing ∧
      (d.bucketLevel, d.bucketId) = (0, 0) := by
  obtain ⟨d, hd⟩ : ∃ d, Discovery.start pool.ourPeerId 0 0 = some d := by
    rw [Discovery.start, dif_pos (by decide), generateInBucket_eq _ (by decide) (by decide)]
    exact ⟨_, rfl⟩
  obtain ⟨hstage, -, -⟩ := Discovery.fresh_of_start hd
  obtain ⟨hlevel, hid⟩ := Discovery.bucket_of_start hd
  obtain ⟨buckets, hbuckets⟩ : ∃ buckets, bucketsBelow 128 = (0, 0) :: buckets := ⟨_, rfl⟩
  let s₁ : RefreshState :=
    { init pool with
      calls := Function.update (init pool).calls 0 (some ⟨(0, 0) :: buckets, none, []⟩) }
  have h₁ : (init pool).step overflowChecks (.call 0) = some s₁ := by rw [step, hbuckets]; rfl
  let s₂ : RefreshState :=
    { s₁ with calls := Function.update s₁.calls 0 (some ⟨(0, 0) :: buckets, s₁.size (0, 0), []⟩) }
  have h₂ : s₁.step overflowChecks (.look 0) = some s₂ := rfl
  have hsize : s₁.size (0, 0) = 0 := congrArg List.length hnil
  let s₃ : RefreshState :=
    { s₂ with
      calls := Function.update s₂.calls 0 (some ⟨[], none, [(0, 0)]⟩)
      tasks := Function.update s₂.tasks 0 (some d) }
  have h₃ : s₂.step overflowChecks (.turn 0 0) = some s₃ := by
    have hcall : s₂.calls 0 = some ⟨(0, 0) :: buckets, some 0, []⟩ :=
      congrArg (fun n => some (RefreshCall.mk ((0, 0) :: buckets) (some n) [])) hsize
    have hturn : s₂.turn 0 0 (0, 0) buckets 0 [] = some s₃ := by
      rw [turn, if_pos kademliaBucketSize_pos]
      exact congrArg (Option.map _) hd
    rw [step, hcall]
    exact hturn
  refine ⟨s₃, d, ?_, rfl, rfl, rfl, hstage, by rw [hlevel, hid]⟩
  rw [exec_cons, h₁, Option.bind_some, exec_cons, h₂, Option.bind_some, exec_singleton, h₃]

/-- New peers of a bucket are added, one after the other; while they fit into it there is room
for the next of them. -/
theorem exec_inserts (overflowChecks : Bool) (peer : PeerInfo) {b : ℕ × ℕ} :
    ∀ {ns : List PeerID} (s : RefreshState), ns.Nodup → (∀ n ∈ ns, n ∉ s.pool.peers) →
    (∀ n ∈ ns, n.bucket s.pool.ourPeerId = some b) →
    ∃ s', exec (step overflowChecks) s (ns.map fun n => .insert n peer) = some s' ∧
      s'.tasks = s.tasks ∧ s'.counts = s.counts ∧ s'.size b = s.size b + ns.length ∧
      (s'.size b ≤ kademliaBucketSize →
        Meets (step overflowChecks) KeepsRoom s (ns.map fun n => .insert n peer))
  | [], s, _, _, _ => ⟨s, rfl, rfl, rfl, rfl, fun _ => trivial⟩
  | n :: ns, s, hnodup, hnew, hbucket => by
    obtain ⟨hn, hnodup⟩ := List.nodup_cons.mp hnodup
    obtain ⟨hnew, hnews⟩ := List.forall_mem_cons.mp hnew
    obtain ⟨hb, hbuckets⟩ := List.forall_mem_cons.mp hbucket
    have hstep : s.step overflowChecks (.insert n peer) =
        some { s with pool := s.pool.insert n peer } := by
      have hcontains : ¬ s.pool.contains n = true := by
        rwa [s.pool.contains_eq_isSome, Option.isSome_iff_ne_none, ← s.pool.mem_peers]
      exact if_neg hcontains
    have hnews' : ∀ m ∈ ns, m ∉ (s.pool.insert n peer).peers := by
      intro m hm hmem
      rcases List.mem_cons.mp ((s.pool.perm_peers_insert peer hnew).mem_iff.mp hmem) with rfl | hmem
      · exact hn hm
      · exact hnews m hm hmem
    obtain ⟨s', hrun, htasks, hcounts, hsize, hmeets⟩ := exec_inserts overflowChecks peer
      { s with pool := s.pool.insert n peer } hnodup hnews' hbuckets
    rw [size_insert peer hnew, if_pos hb] at hsize
    refine ⟨s', exec_cons_eq_some.mpr ⟨_, hstep, hrun⟩, htasks, hcounts, ?_, fun hle => ?_⟩
    · rw [hsize, List.length_cons]
      omega
    · rw [List.map_cons, meets_cons hstep]
      refine ⟨fun b' _ hb' => ?_, hmeets hle⟩
      cases hb.symm.trans hb'
      omega

theorem exec_count (overflowChecks : Bool) {t : ℕ} {d : Discovery} (hd : s.tasks t = some d)
    (hstage : d.stage = .listing) :
    ∃ s', exec (step overflowChecks) s [.task t .list, .task t .count] = some s' ∧
      s'.counts = s.counts ++ [s.size (d.bucketLevel, d.bucketId)] := by
  let d₁ : Discovery :=
    { d with
      providers := s.pool.peersOnBucketAndUnder d.bucketLevel
      stage := .counting
      listed := s.pool.peersOnBucketAndUnder d.bucketLevel }
  have hlist : d.step overflowChecks (s.pool, .list) = some d₁ := by rw [Discovery.step, hstage]
  obtain ⟨d₂, hcount⟩ : ∃ d₂, d₁.step overflowChecks (s.pool, .count) = some d₂ := by
    rw [Discovery.step]
    split
    · split
      · exact ⟨_, rfl⟩
      · exact ⟨_, rfl⟩
    · rename_i hnot
      exact absurd rfl hnot
  let s₁ : RefreshState :=
    { s with tasks := Function.update s.tasks t (some d₁), counts := s.counts ++ [] }
  have h₁ : s.step overflowChecks (.task t .list) = some s₁ := by
    rw [step, hd]
    exact congrArg (Option.map _) hlist
  have h₂ : s₁.step overflowChecks (.task t .count) = some
      { s₁ with
        tasks := Function.update s₁.tasks t (some d₂)
        counts := s₁.counts ++ [s.size (d.bucketLevel, d.bucketId)] } := by
    rw [step, show s₁.tasks t = _ from Function.update_self _ _ _]
    exact congrArg (Option.map _) hcount
  refine ⟨_, exec_cons_eq_some.mpr ⟨s₁, h₁, (exec_singleton _ _).trans h₂⟩, ?_⟩
  exact congrArg (· ++ _) (List.append_nil s.counts)

end RefreshState

/-- **A discovery counts at most eight peers** as long as no peer is added to a full bucket of
which a discovery is about to count the peers; and a peer that is added to such a bucket makes
the next count exceed. -/
theorem discovery_counts_fit (overflowChecks : Bool) (pool : ConnectionPool)
    {labels : List RefreshLabel} {s : RefreshState}
    (hrun : exec (RefreshState.step overflowChecks) (.init pool) labels = some s) :
    (Meets (RefreshState.step overflowChecks) RefreshState.KeepsRoom (.init pool) labels →
        Always (RefreshState.step overflowChecks) RefreshState.CountsFit (.init pool) labels) ∧
      (Always (RefreshState.step overflowChecks)
          (fun s => s.CountsFit ∧ s.CountsWouldFit) (.init pool) labels ↔
        Meets (RefreshState.step overflowChecks) RefreshState.KeepsRoom (.init pool) labels) := by
  have hfit : (RefreshState.init pool).CountsFit := fun _ h => absurd h List.not_mem_nil
  have hwould : (RefreshState.init pool).CountsWouldFit := by
    rintro b (⟨⟨⟩, -⟩ | ⟨⟨⟩, -, -⟩)
  have hstep : ∀ s l t, s.CountsFit ∧ s.CountsWouldFit →
      RefreshState.step overflowChecks s l = some t → (t.CountsFit ∧ t.CountsWouldFit ↔ s.KeepsRoom l) :=
    fun s l t h => RefreshState.fits_of_step h.1 h.2
  constructor
  · intro hmeets
    exact always_of_meets (fun s l t h hroom hl => (hstep s l t h hl).mpr hroom) (fun _ h => h.1)
      hmeets ⟨hfit, hwould⟩
  · exact always_iff_meets_of_step (J := fun _ => True) (fun _ _ _ _ _ => trivial)
      (fun s l t _ h hl => hstep s l t h hl) hrun trivial ⟨hfit, hwould⟩

/-- Peers that fill the first bucket of the node with the id of zeros. -/
def firstEight : List PeerID :=
  [.ofByte 64, .ofByte 65, .ofByte 66, .ofByte 67, .ofByte 68, .ofByte 69, .ofByte 70,
    .ofByte 71]

/-- A call on the empty pool spawns a discovery, peers join, and it counts them. -/
def joinsBeforeCount (ns : List PeerID) : List RefreshLabel :=
  [.call 0, .look 0, .turn 0 0] ++
    (ns.map (fun n => .insert n ⟨"local-1", 0, none, 0⟩) ++ [.task 0 .list, .task 0 .count])

theorem exec_joinsBeforeCount (ns : List PeerID) (hnodup : ns.Nodup)
    (hbucket : ∀ n ∈ ns, n.bucket (.ofByte 0) = some (0, 0)) : ∃ s,
    exec (RefreshState.step true) (.init (.new (.ofByte 0))) (joinsBeforeCount ns) = some s ∧
      s.counts = [ns.length] ∧
      (ns.length ≤ kademliaBucketSize →
        Meets (RefreshState.step true) RefreshState.KeepsRoom (.init (.new (.ofByte 0)))
          (joinsBeforeCount ns)) := by
  have hnil := ConnectionPool.peersOnBucket_new (.ofByte 0) 0 0
  obtain ⟨s, d, hspawn, hpool, hcounts, hd, hstage, hbucket₀⟩ :=
    RefreshState.exec_spawn true hnil
  obtain ⟨s', hinserts, htasks, hcounts', hsize, hroom⟩ := RefreshState.exec_inserts
    true ⟨"local-1", 0, none, 0⟩ (b := (0, 0)) s hnodup
    (by rw [hpool, ConnectionPool.peers_new]; exact fun _ _ => List.not_mem_nil)
    (by rw [hpool]; exact hbucket)
  have hlength : s'.size (0, 0) = ns.length := by
    rw [hsize, RefreshState.size, hpool, hnil]
    exact Nat.zero_add _
  obtain ⟨s'', hcount, hcounts''⟩ := RefreshState.exec_count true (htasks ▸ hd) hstage
  refine ⟨s'', (exec_append_of hspawn).trans ((exec_append_of hinserts).trans hcount), ?_,
    fun hle => ?_⟩
  · rw [hcounts'', hcounts', hcounts, hbucket₀, hlength, List.nil_append]
  · exact (meets_of_forall (by simp [RefreshState.KeepsRoom])).append hspawn
      ((hroom (hlength.trans_le hle)).append hinserts
        (meets_of_forall (by simp [RefreshState.KeepsRoom])))

/-- Eight peers join the bucket before it is counted. -/
theorem discovery_counts_fit_eight : ∃ s,
    exec (RefreshState.step true) (.init (.new (.ofByte 0))) (joinsBeforeCount firstEight) =
        some s ∧
      s.counts = [8] ∧
      Always (RefreshState.step true) RefreshState.CountsFit (.init (.new (.ofByte 0)))
        (joinsBeforeCount firstEight) := by
  obtain ⟨s, hrun, hcounts, hroom⟩ := exec_joinsBeforeCount firstEight
    (by decide) (by decide)
  exact ⟨s, hrun, hcounts, (discovery_counts_fit true _ hrun).1 (hroom (by decide))⟩

/-- Nine peers join the bucket before it is counted. -/
theorem discovery_counts_nine : ∃ labels s,
    exec (RefreshState.step true) (.init (.new (.ofByte 0))) labels = some s ∧ s.counts = [9] ∧
      ¬ s.CountsFit := by
  obtain ⟨s, hrun, hcounts, -⟩ := exec_joinsBeforeCount (.ofByte 72 :: firstEight)
    (by decide) (by decide)
  refine ⟨_, s, hrun, hcounts, fun hfit => ?_⟩
  have hle := hfit 9 (hcounts ▸ List.mem_singleton_self 9)
  exact absurd hle (by decide)

end Tewta
