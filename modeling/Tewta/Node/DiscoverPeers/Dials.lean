import Tewta.Node.DiscoverPeers.Tried

/-!
# What a discovery dials

A candidate that does not match the request is dialled all the same: there is a warning only.
So the peers that are dialled and discovered are of the bucket as far as the candidates are
(`discovery_stays_in_bucket_iff`).

The candidates are taken from the end of the response, whose documentation says that the
responder's preference is at its beginning.  They are dialled in the order of the response where
what is left of it could not be dialled anyway (`discovery_follows_preference_iff`).
-/

namespace Tewta

open DiscoveryStage Discovery PeerID Transition

variable {overflowChecks : Bool} {self : PeerID} {s s' : Discovery} {pool : ConnectionPool}
  {l : DiscoveryLabel}

/-- **What a step adds to the dials** is the candidate that is looked at, if it is not
connected. -/
theorem forall_dials_of_step {Q : Dial → Prop} (hall : ∀ d ∈ s.dials, Q d)
    (h : s.step overflowChecks (pool, l) = some s') :
    (∀ d ∈ s'.dials, Q d) ↔ (l = .check → ∀ c, s.stage = .checking c →
      pool.contains c.1 = false → Q ⟨c, s.response, s.followed, s.oldCandidates, pool⟩) := by
  cases step_cases h with
  | @dials candidate hstage hcontains =>
    rw [List.forall_mem_append, List.forall_mem_singleton, and_iff_right hall]
    constructor
    · intro hdial _ c hc _
      cases hstage.symm.trans hc
      exact hdial
    · intro hcheck
      exact hcheck rfl candidate hstage hcontains
  | @skips candidate hstage hcontains =>
    refine iff_of_true hall fun _ c hc hnot => ?_
    cases hstage.symm.trans hc
    rw [hcontains] at hnot
    cases hnot
  | _ => exact iff_of_true hall fun hcheck => nomatch hcheck

/-! ### The bucket -/

/-- The peers dialled are in the bucket. -/
def DialsInBucket (self : PeerID) (s : Discovery) : Prop :=
  ∀ c ∈ s.dialled, c.1.bucket self = some (s.bucketLevel, s.bucketId)

/-- The peers discovered are in the bucket. -/
def DiscoversInBucket (self : PeerID) (s : Discovery) : Prop :=
  ∀ n ∈ s.discovered, n.bucket self = some (s.bucketLevel, s.bucketId)

/-- A candidate of which there is no warning, unless it is connected. -/
def ChecksMatching (s : Discovery) : ConnectionPool × DiscoveryLabel → Prop
  | (pool, .check) =>
    ∀ c, s.stage = .checking c → pool.contains c.1 = false → c.1.matches s.target s.mask = true
  | _ => True

/-- A handshake with a peer of which there was no warning. -/
def MeetsMatching (s : Discovery) : ConnectionPool × DiscoveryLabel → Prop
  | (_, .handshake (.ok n)) => n.matches s.target s.mask = true
  | _ => True

/-- Matching the target under the mask is being in the bucket. -/
def Aims (self : PeerID) (s : Discovery) : Prop :=
  ∀ n : PeerID, n.matches s.target s.mask = true ↔
    n.bucket self = some (s.bucketLevel, s.bucketId)

theorem aims_of_start {bucketLevel bucketId : ℕ}
    (h : Discovery.start self bucketLevel bucketId = some s) : Aims self s := by
  rw [Discovery.start] at h
  split at h
  · rename_i hlt
    obtain ⟨target, htarget, rfl⟩ := Option.map_eq_some_iff.mp h
    exact matches_generateInBucket_iff hlt.1 hlt.2 htarget
  · cases h

theorem Aims.step (haims : Aims self s) (h : s.step overflowChecks (pool, l) = some s') :
    Aims self s' := by
  obtain ⟨hlevel, hid, htarget, hmask⟩ := aim_of_step h
  rw [Aims, hlevel, hid, htarget, hmask]
  exact haims

/-- **A step that dials outside the bucket** is a check with a warning. -/
theorem dialsInBucket_of_step (haims : Aims self s) (hall : DialsInBucket self s)
    (h : s.step overflowChecks (pool, l) = some s') :
    DialsInBucket self s' ↔ ChecksMatching s (pool, l) := by
  obtain ⟨hlevel, hid, -, -⟩ := aim_of_step h
  rw [DialsInBucket, dialled, List.forall_mem_map, hlevel, hid,
    forall_dials_of_step (List.forall_mem_map.mp hall) h]
  cases l with
  | check =>
    exact ⟨fun hdial c hc hnot => (haims c.1).mpr (hdial rfl c hc hnot),
      fun hmatch _ c hc hnot => (haims c.1).mp (hmatch c hc hnot)⟩
  | _ =>
    refine iff_of_true ?_ trivial
    rintro ⟨⟩

/-- **A step that discovers outside the bucket** is a handshake with a peer that does not match. -/
theorem discoversInBucket_of_step (haims : Aims self s) (hall : DiscoversInBucket self s)
    (h : s.step overflowChecks (pool, l) = some s') :
    DiscoversInBucket self s' ↔ MeetsMatching s (pool, l) := by
  cases step_cases h with
  | @discovers candidate hstage =>
    refine Iff.trans ?_ (haims candidate.1).symm
    constructor
    · intro hdiscovered
      exact hdiscovered candidate.1 (List.mem_append_right _ (List.mem_singleton_self _))
    · intro hbucket n hn
      rcases List.mem_append.mp hn with hn | hn
      · exact hall n hn
      · cases List.mem_singleton.mp hn
        exact hbucket
  | _ => exact iff_of_true hall trivial

/-- **A discovery stays in its bucket** as long as it warns of no candidate that it goes on to
dial; and only such a candidate is discovered outside of it. -/
theorem discovery_stays_in_bucket_iff (overflowChecks : Bool) {self : PeerID}
    {bucketLevel bucketId : ℕ} {s₀ s : Discovery}
    (hstart : Discovery.start self bucketLevel bucketId = some s₀)
    {labels : List (ConnectionPool × DiscoveryLabel)}
    (hrun : exec (Discovery.step overflowChecks) s₀ labels = some s) :
    (Always (Discovery.step overflowChecks) (DialsInBucket self) s₀ labels ↔
        Meets (Discovery.step overflowChecks) ChecksMatching s₀ labels) ∧
      (Always (Discovery.step overflowChecks) (DiscoversInBucket self) s₀ labels ↔
        Meets (Discovery.step overflowChecks) MeetsMatching s₀ labels) := by
  have haims := aims_of_start hstart
  obtain ⟨-, hdials, hdiscovered⟩ := fresh_of_start hstart
  constructor
  · refine always_iff_meets_of_step (J := Aims self) (fun _ _ _ haims h => haims.step h)
      (fun _ _ _ haims hall h => dialsInBucket_of_step haims hall h) hrun haims fun c hc => ?_
    rw [dialled, hdials] at hc
    cases hc
  · refine always_iff_meets_of_step (J := Aims self) (fun _ _ _ haims h => haims.step h)
      (fun _ _ _ haims hall h => discoversInBucket_of_step haims hall h) hrun haims fun n hn => ?_
    rw [hdiscovered] at hn
    cases hn

/-- The peer that the provider suggests is in the bucket. -/
theorem discovery_stays_in_bucket_iff_findsOne : ∃ s₀ s,
    Discovery.start (.ofByte 0) 0 0 = some s₀ ∧
      exec (Discovery.step true) s₀ findsOne = some s ∧
      s.dialled = [(.ofByte 64, "local-1")] ∧ s.discovered = [.ofByte 64] ∧
      Always (Discovery.step true) (DialsInBucket (.ofByte 0)) s₀ findsOne ∧
      Always (Discovery.step true) (DiscoversInBucket (.ofByte 0)) s₀ findsOne := by
  obtain ⟨s₀, hs₀⟩ := exists_start_first
  obtain ⟨s, hrun, -, -, hdialled, hdiscovered, -⟩ := exec_findsOne true hs₀
  have hmatch : (PeerID.ofByte 64).matches s₀.target s₀.mask = true := by
    rw [aims_of_start hs₀, (bucket_of_start hs₀).1, (bucket_of_start hs₀).2]
    decide
  have hiff := discovery_stays_in_bucket_iff true hs₀ hrun
  refine ⟨s₀, s, hs₀, hrun, hdialled, hdiscovered, hiff.1.mpr ?_, hiff.2.mpr ?_⟩
  · refine meets_findsOne true hs₀ (fun s pool l hne => ?_)
      fun s htarget hmask hstage _ _ c hc _ => ?_
    · cases l with
      | check => exact absurd rfl hne
      | _ => trivial
    · cases hstage.symm.trans hc
      rw [htarget, hmask]
      exact hmatch
  · refine meets_of_invariant (I := fun s => s.target = s₀.target ∧ s.mask = s₀.mask)
      (fun s l t inv h => ?_) (fun l hl s inv => ?_) ⟨rfl, rfl⟩
    · obtain ⟨-, -, htarget, hmask⟩ := aim_of_step h
      exact ⟨htarget.trans inv.1, hmask.trans inv.2⟩
    · obtain ⟨pool, l⟩ := l
      cases l with
      | handshake result =>
        cases result with
        | ok n =>
          rw [MeetsMatching, eq_of_met_findsOne hl, inv.1, inv.2]
          exact hmatch
        | error e => trivial
      | _ => trivial

/-- Asked for peers of the first bucket, the provider suggests one of the second, which is
dialled, and joins the pool. -/
theorem discovery_leaves_bucket : ∃ labels s₀ s,
    Discovery.start (.ofByte 0) 0 0 = some s₀ ∧ exec (Discovery.step true) s₀ labels = some s ∧
      s.dialled = [(.ofByte 128, "local-1")] ∧ s.discovered = [.ofByte 128] ∧
      (PeerID.ofByte 128).bucket (.ofByte 0) = some (0, 1) ∧
      (PeerID.ofByte 128).matches s.target s.mask = false := by
  obtain ⟨s₀, hs₀⟩ := exists_start_first
  have hcontains : lonePool.contains (.ofByte 128) = false := lonePool_contains_of_ne (by decide)
  obtain ⟨labels, hrun⟩ := exec_lonePool_dial true hs₀ [] (.ofByte 128, "local-1") hcontains
  have hmatch : (PeerID.ofByte 128).matches s₀.target s₀.mask = false := by
    rw [← Bool.not_eq_true, aims_of_start hs₀, (bucket_of_start hs₀).1, (bucket_of_start hs₀).2]
    decide
  have hdiscover := (exec_append_of hrun).trans (exec_discover lonePool rfl)
  exact ⟨_, s₀, _, hs₀, hdiscover, rfl, rfl, by decide, hmatch⟩

/-! ### The order of a response -/

/-- What was dialled before from the response is listed before it, and what is listed before it
was tried, or is connected. -/
def Dial.InOrder (d : Dial) : Prop :=
  (∀ c ∈ d.earlier, d.response.idxOf c < d.response.idxOf d.pair) ∧
    ∀ c ∈ d.response, d.response.idxOf c < d.response.idxOf d.pair →
      c ∈ d.tried ∨ d.pool.contains c.1 = true

/-- Every candidate was dialled in its turn. -/
def DialsInOrder (s : Discovery) : Prop := ∀ d ∈ s.dials, d.InOrder

/-- What is left to take up to the first place of a candidate. -/
def Discovery.ahead (s : Discovery) (candidate : PeerID × String) : List (PeerID × String) :=
  s.candidates.take (s.candidates.idxOf candidate)

/-- A candidate that is dialled leaves only pairs behind that are not dialled after it, and they
are all that was dialled before it from the same response. -/
def TakesFirst (s : Discovery) : ConnectionPool × DiscoveryLabel → Prop
  | (pool, .check) =>
    ∀ candidate, s.stage = .checking candidate → pool.contains candidate.1 = false →
      (∀ c ∈ s.followed, c ∈ s.ahead candidate) ∧
        ∀ c ∈ s.ahead candidate, c ∈ s.oldCandidates ∨ pool.contains c.1 = true
  | _ => True

/-- **What is left up to a candidate in hand** is what the response lists before it. -/
theorem mem_ahead_iff (inv : CandidatesInv s) {candidate : PeerID × String}
    (hstage : s.stage = .checking candidate) {c : PeerID × String} :
    c ∈ s.ahead candidate ↔ s.response.idxOf c < s.response.idxOf candidate := by
  obtain ⟨popped, hresponse⟩ := inv.response
  rw [hstage] at hresponse
  change s.response = s.candidates ++ candidate :: popped at hresponse
  have hidx : s.response.idxOf candidate = s.candidates.idxOf candidate := by
    rw [hresponse]
    by_cases hmem : candidate ∈ s.candidates
    · exact List.idxOf_append_of_mem hmem
    · rw [List.idxOf_append_of_notMem hmem, List.idxOf_cons_self, Nat.add_zero,
        List.idxOf_eq_length hmem]
  have hbefore : s.ahead candidate <+: s.response := by
    rw [hresponse]
    exact (List.take_prefix _ _).trans (List.prefix_append _ _)
  have hlen : (s.ahead candidate).length = s.response.idxOf candidate := by
    rw [hidx, Discovery.ahead, List.length_take]
    exact min_eq_left List.idxOf_le_length
  rw [hbefore.mem_iff_idxOf_lt_length, hlen]

/-- The pairs that the response lists before a candidate are in it. -/
theorem inOrder_iff (inv : CandidatesInv s) {candidate : PeerID × String}
    (hstage : s.stage = .checking candidate) (pool : ConnectionPool) :
    (Dial.mk candidate s.response s.followed s.oldCandidates pool).InOrder ↔
      (∀ c ∈ s.followed, c ∈ s.ahead candidate) ∧
        ∀ c ∈ s.ahead candidate, c ∈ s.oldCandidates ∨ pool.contains c.1 = true := by
  refine and_congr (forall₂_congr fun c _ => (mem_ahead_iff inv hstage).symm)
    (forall_congr' fun c => ?_)
  rw [mem_ahead_iff inv hstage]
  refine ⟨fun h hlt => ?_, fun h _ hlt => h hlt⟩
  exact h (List.idxOf_lt_length_iff.mp (hlt.trans_le List.idxOf_le_length)) hlt

/-- **A step that dials out of turn** is a check that leaves something to dial behind. -/
theorem dialsInOrder_of_step (inv : CandidatesInv s) (hall : DialsInOrder s)
    (h : s.step overflowChecks (pool, l) = some s') : DialsInOrder s' ↔ TakesFirst s (pool, l) := by
  rw [DialsInOrder, forall_dials_of_step hall h]
  cases l with
  | check =>
    exact ⟨fun hdial c hc hnot => (inOrder_iff inv hc pool).mp (hdial rfl c hc hnot),
      fun hfirst _ c hc hnot => (inOrder_iff inv hc pool).mpr (hfirst c hc hnot)⟩
  | _ =>
    refine iff_of_true ?_ trivial
    rintro ⟨⟩

/-- **A discovery follows the preference of the responders** exactly as long as no candidate is
dialled that leaves another one behind. -/
theorem discovery_follows_preference_iff (overflowChecks : Bool) {self : PeerID}
    {bucketLevel bucketId : ℕ} {s₀ s : Discovery}
    (hstart : Discovery.start self bucketLevel bucketId = some s₀)
    {labels : List (ConnectionPool × DiscoveryLabel)}
    (hrun : exec (Discovery.step overflowChecks) s₀ labels = some s) :
    Always (Discovery.step overflowChecks) DialsInOrder s₀ labels ↔
      Meets (Discovery.step overflowChecks) TakesFirst s₀ labels := by
  obtain ⟨-, hdials, -⟩ := fresh_of_start hstart
  refine always_iff_meets_of_step (J := DiscoveryInv) (fun _ _ _ inv h => inv.step h)
    (fun _ _ _ inv hall h => dialsInOrder_of_step inv.candidates hall h) hrun
    (DiscoveryInv.start hstart) fun d hd => ?_
  rw [hdials] at hd
  cases hd

/-- The only peer that the provider suggests is dialled. -/
theorem discovery_follows_preference_iff_findsOne : ∃ s₀ s,
    Discovery.start (.ofByte 0) 0 0 = some s₀ ∧
      exec (Discovery.step true) s₀ findsOne = some s ∧
      s.dialled = [(.ofByte 64, "local-1")] ∧
      Always (Discovery.step true) DialsInOrder s₀ findsOne := by
  obtain ⟨s₀, hs₀⟩ := exists_start_first
  obtain ⟨s, hrun, -, -, hdialled, -⟩ := exec_findsOne true hs₀
  refine ⟨s₀, s, hs₀, hrun, hdialled, (discovery_follows_preference_iff true hs₀ hrun).mpr ?_⟩
  refine meets_findsOne true hs₀ (fun s pool l hne => ?_)
    fun s _ _ _ hcandidates hfollowed _ _ _ => ⟨?_, ?_⟩
  · cases l with
    | check => exact absurd rfl hne
    | _ => trivial
  · rw [hfollowed]
    exact List.forall_mem_nil _
  · rw [Discovery.ahead, hcandidates]
    exact fun _ hc => absurd hc List.not_mem_nil

/-- Of two suggestions the second is dialled, though the first is not connected and was not
tried. -/
theorem discovery_reverses_preference : ∃ labels s₀ s d,
    Discovery.start (.ofByte 0) 0 0 = some s₀ ∧ exec (Discovery.step true) s₀ labels = some s ∧
      s.dials = [d] ∧ d.response = [(.ofByte 64, "local-1"), (.ofByte 65, "local-2")] ∧
      d.pair = (.ofByte 65, "local-2") ∧ d.tried = [(.ofByte 65, "local-2")] ∧
      d.pool.contains (.ofByte 64) = false ∧ ¬ d.InOrder := by
  obtain ⟨s₀, hs₀⟩ := exists_start_first
  obtain ⟨labels, hrun⟩ := exec_lonePool_dial true hs₀ [(.ofByte 64, "local-1")]
    (.ofByte 65, "local-2") (lonePool_contains_of_ne (by decide))
  have hfirst : lonePool.contains (.ofByte 64) = false := lonePool_contains_of_ne (by decide)
  refine ⟨labels, s₀, _, _, hs₀, hrun, rfl, rfl, rfl, rfl, hfirst, fun h => ?_⟩
  rcases h.2 (.ofByte 64, "local-1") List.mem_cons_self (by decide) with htried | hconnected
  · exact absurd htried (by decide)
  · rw [hfirst] at hconnected
    cases hconnected

end Tewta
