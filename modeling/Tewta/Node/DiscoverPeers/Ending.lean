import Mathlib.Data.Prod.Lex
import Mathlib.Order.OrderIsoNat
import Tewta.Node.DiscoverPeers.Tried

/-!
# How a discovery ends

Each step leaves less: a provider less to ask, a candidate less, or the candidate in hand nearer
to its end; and only a response fills the list of candidates again, for which a provider is
gone.  A response that is not waited for changes nothing, so a discovery ends if those that it
waits for arrive (`discovery_is_bounded`).

It ends early where a candidate fails in the handshake: the others are not tried
(`discovery_tries_all_iff`).
-/

namespace Tewta

open DiscoveryStage Discovery PeerID Transition

variable {overflowChecks : Bool} {s s' : Discovery} {pool : ConnectionPool} {l : DiscoveryLabel}

namespace DiscoveryStage

/-- How far it is to the loop. -/
def phase : DiscoveryStage → ℕ
  | .listing => 2
  | .counting => 1
  | _ => 0

/-- How far it is through the loop. -/
def weight : DiscoveryStage → ℕ
  | .checking _ => 6
  | .connecting _ => 5
  | .handshaking _ => 4
  | .looping => 3
  | .asking _ => 2
  | .awaiting _ _ => 1
  | _ => 0

end DiscoveryStage

namespace Discovery

/-- What is left: the way to the loop, the providers, the candidates, and the way through
the loop. -/
def rank (s : Discovery) : ℕ ×ₗ ℕ ×ₗ ℕ ×ₗ ℕ :=
  toLex (s.stage.phase, toLex (s.providers.length + s.stage.isAsking.toNat,
    toLex (s.candidates.length, s.stage.weight)))

theorem rank_lt (h : s'.stage.phase < s.stage.phase ∨ s'.stage.phase = s.stage.phase ∧
    (s'.providers.length + s'.stage.isAsking.toNat < s.providers.length + s.stage.isAsking.toNat ∨
      s'.providers.length + s'.stage.isAsking.toNat =
          s.providers.length + s.stage.isAsking.toNat ∧
        (s'.candidates.length < s.candidates.length ∨
          s'.candidates.length = s.candidates.length ∧ s'.stage.weight < s.stage.weight))) :
    s'.rank < s.rank := by
  rw [rank, rank, Prod.Lex.toLex_lt_toLex]
  refine h.imp_right (And.imp_right fun h => Prod.Lex.toLex_lt_toLex.mpr ?_)
  exact h.imp_right (And.imp_right fun h => Prod.Lex.toLex_lt_toLex.mpr h)

/-- **A step leaves less**, unless it is a response that is not waited for. -/
theorem rank_lt_of_step (h : s.step overflowChecks (pool, l) = some s') :
    s'.rank < s.rank ∨ s' = s ∧ ∃ provider requestId n resp,
      s.stage = .awaiting provider requestId ∧ l = .receive n resp ∧
        ¬ (resp.requestId = requestId ∧ n = provider) := by
  cases step_cases h with
  | ignores hstage hne => exact Or.inr ⟨rfl, _, _, _, _, hstage, rfl, hne⟩
  | _ => exact Or.inl (rank_lt (by simp [*, phase, isAsking, weight]))

/-- **There is no endless run** in which the responses that are waited for arrive. -/
theorem exists_stop (run : ℕ → Discovery) (labels : ℕ → ConnectionPool × DiscoveryLabel)
    (harrives : ∀ n provider requestId, (run n).stage = .awaiting provider requestId →
      ∃ m, n ≤ m ∧ ∃ resp, resp.requestId = requestId ∧ (labels m).2 = .receive provider resp) :
    ∃ n, (run n).step overflowChecks (labels n) ≠ some (run (n + 1)) := by
  by_contra hall
  have hstep : ∀ n, (run n).step overflowChecks ((labels n).1, (labels n).2) =
      some (run (n + 1)) := by
    intro n
    by_contra hn
    exact hall ⟨n, hn⟩
  have hle : Antitone fun n => (run n).rank := by
    refine antitone_nat_of_succ_le fun n => ?_
    rcases rank_lt_of_step (hstep n) with hlt | ⟨heq, -⟩
    · exact hlt.le
    · rw [heq]
  -- from some step on there is nothing but responses that are not waited for
  obtain ⟨n, hn⟩ := WellFoundedGT.monotone_chain_condition
    (α := (ℕ ×ₗ ℕ ×ₗ ℕ ×ₗ ℕ)ᵒᵈ) ⟨fun n => OrderDual.toDual (run n).rank, hle⟩
  have hstays : ∀ m, n ≤ m → run (m + 1) = run m ∧ ∃ provider requestId n' resp,
      (run m).stage = .awaiting provider requestId ∧ (labels m).2 = .receive n' resp ∧
        ¬ (resp.requestId = requestId ∧ n' = provider) := by
    intro m hm
    refine (rank_lt_of_step (hstep m)).resolve_left fun hlt => ?_
    have heq : (run m).rank = (run (m + 1)).rank :=
      (hn m hm).symm.trans (hn (m + 1) (Nat.le_succ_of_le hm))
    exact hlt.ne heq.symm
  have hsame : ∀ m, n ≤ m → run m = run n := by
    intro m hm
    induction m, hm using Nat.le_induction with
    | base => rfl
    | succ m hm ih => exact (hstays m hm).1.trans ih
  obtain ⟨-, provider, requestId, -, -, hstage, -, -⟩ := hstays n le_rfl
  obtain ⟨m, hm, resp, hid, hl⟩ := harrives n provider requestId hstage
  obtain ⟨-, provider', requestId', n', resp', hstage', hl', hne⟩ := hstays m hm
  rw [hsame m hm, hstage] at hstage'
  cases hstage'
  rw [hl] at hl'
  cases hl'
  exact hne ⟨hid, rfl⟩

/-- A discovery that has not ended can go on. -/
theorem exists_step (hended : s.stage.isEnded = false) (pool : ConnectionPool) :
    ∃ l s', s.step overflowChecks (pool, l) = some s' ∧ s'.rank < s.rank := by
  have hrank : ∀ {l s'}, s.step overflowChecks (pool, l) = some s' →
      (∀ n resp, l ≠ .receive n resp) → s'.rank < s.rank := by
    intro l s' h hl
    rcases rank_lt_of_step h with hlt | ⟨-, _, _, n, resp, -, heq, -⟩
    · exact hlt
    · exact absurd heq (hl n resp)
  cases hstage : s.stage with
  | listing =>
    have h : s.step overflowChecks (pool, .list) ≠ none := by simp [step, hstage]
    obtain ⟨s', h⟩ := Option.ne_none_iff_exists'.mp h
    exact ⟨_, s', h, hrank h fun _ _ => by rintro ⟨⟩⟩
  | counting =>
    have h : s.step overflowChecks (pool, .count) ≠ none := by
      simp only [step, hstage]
      split <;> simp
    obtain ⟨s', h⟩ := Option.ne_none_iff_exists'.mp h
    exact ⟨_, s', h, hrank h fun _ _ => by rintro ⟨⟩⟩
  | looping =>
    have h : s.step overflowChecks (pool, .turn) = some s.turn := by simp [step, hstage]
    exact ⟨_, _, h, hrank h fun _ _ => by rintro ⟨⟩⟩
  | checking candidate =>
    have h : s.step overflowChecks (pool, .check) = some (s.check pool candidate) := by
      simp [step, hstage]
    exact ⟨_, _, h, hrank h fun _ _ => by rintro ⟨⟩⟩
  | connecting candidate =>
    have h : s.step overflowChecks (pool, .connect .unreachable) =
        some { s with stage := .looping } := by simp [step, hstage]
    exact ⟨_, _, h, hrank h fun _ _ => by rintro ⟨⟩⟩
  | handshaking candidate =>
    have h : s.step overflowChecks (pool, .handshake (.error .samePeer)) =
        some { s with stage := .returned } := by simp [step, hstage]
    exact ⟨_, _, h, hrank h fun _ _ => by rintro ⟨⟩⟩
  | asking provider =>
    have h : s.step overflowChecks (pool, .ask 0 true) =
        some { s with stage := .awaiting provider 0, asked := s.asked ++ [provider] } := by
      simp [step, hstage]
    exact ⟨_, _, h, hrank h fun _ _ => by rintro ⟨⟩⟩
  | awaiting provider requestId =>
    let resp : DiscoverPeersRespPacket := ⟨requestId, []⟩
    have h : s.step overflowChecks (pool, .receive provider resp) =
        some (s.receive provider requestId provider resp) := by simp [step, hstage]
    refine ⟨_, _, h, ?_⟩
    rcases rank_lt_of_step h with hlt | ⟨-, _, _, _, _, hstage', heq, hne⟩
    · exact hlt
    · rw [hstage] at hstage'
      cases hstage'
      cases heq
      exact absurd ⟨rfl, rfl⟩ hne
  | returned =>
    rw [hstage] at hended
    cases hended
  | panicked =>
    rw [hstage] at hended
    cases hended

end Discovery

/-- **What succeeds was missing** when the peers of the bucket were counted. -/
theorem discovered_of_count (inv : DiscoveryInv s) {labels : List (ConnectionPool × DiscoveryLabel)}
    (h : exec (Discovery.step overflowChecks) s labels = some s')
    (hmem : (pool, DiscoveryLabel.count) ∈ labels)
    (hlen : (pool.peersOnBucket s.bucketLevel s.bucketId).length ≤ kademliaBucketSize) :
    s'.discovered.length + (pool.peersOnBucket s.bucketLevel s.bucketId).length ≤
      kademliaBucketSize := by
  induction labels generalizing s with
  | nil => cases hmem
  | cons x labels ih =>
    obtain ⟨t, hstep, hrun⟩ := exec_cons_eq_some.mp h
    obtain ⟨hlevel, hid, -, -⟩ := aim_of_step hstep
    rcases List.mem_cons.mp hmem with heq | hmem
    · subst heq
      have hmissing := missingPeersOf_of_le overflowChecks hlen
      cases step_cases hstep with
      | @count n _ hn =>
        cases hmissing.symm.trans hn
        have invt := inv.step hstep
        have hsome := invt.missing.missing_of_exec rfl hrun
        have invs' : DiscoveryInv s' := invariant_of_exec (fun _ _ _ inv h => inv.step h) hrun invt
        have hsum := invs'.missing.missing _ hsome
        omega
      | overflows _ hnone => cases hmissing.symm.trans hnone
    · rw [← hlevel, ← hid] at hlen ⊢
      exact ih (inv.step hstep) hrun hmem hlen

/-- **A discovery is bounded.**  It ends if the responses that it waits for arrive; and in
every run, whatever the responses, the connections, the handshakes and the pools on its way are,
it asks no provider twice, dials no pair twice, and does not succeed more often than peers were
missing at the beginning.  As long as it has not ended it can go on. -/
theorem discovery_is_bounded (overflowChecks : Bool) {self : PeerID} {bucketLevel bucketId : ℕ}
    {s₀ : Discovery} (hstart : Discovery.start self bucketLevel bucketId = some s₀) :
    (∀ (run : ℕ → Discovery) (labels : ℕ → ConnectionPool × DiscoveryLabel), run 0 = s₀ →
      (∀ n provider requestId, (run n).stage = .awaiting provider requestId →
        ∃ m, n ≤ m ∧ ∃ resp, resp.requestId = requestId ∧
          (labels m).2 = .receive provider resp) →
      ∃ n, (run n).step overflowChecks (labels n) ≠ some (run (n + 1))) ∧
    ∀ labels s, exec (Discovery.step overflowChecks) s₀ labels = some s →
      s.asked.Nodup ∧ s.dialled.Nodup ∧ (∀ m, s.missing = some m → s.discovered.length ≤ m) ∧
        (∀ pool, (pool, .count) ∈ labels →
          (pool.peersOnBucket bucketLevel bucketId).length ≤ kademliaBucketSize →
          s.discovered.length ≤
            kademliaBucketSize - (pool.peersOnBucket bucketLevel bucketId).length) ∧
        (s.stage.isEnded = false →
          ∀ pool, ∃ l s', s.step overflowChecks (pool, l) = some s' ∧ s' ≠ s) := by
  refine ⟨fun run labels _ harrives => exists_stop run labels harrives, fun labels s h => ?_⟩
  have inv₀ := DiscoveryInv.start hstart
  have inv : DiscoveryInv s := invariant_of_exec (fun _ _ _ inv h => inv.step h) h inv₀
  refine ⟨inv.providers.nodup_asked, inv.candidates.nodup_dialled, fun m hm => ?_,
    fun pool hmem hlen => ?_, fun hended pool => ?_⟩
  · have hsum := inv.missing.missing m hm
    omega
  · obtain ⟨hlevel, hid⟩ := bucket_of_start hstart
    rw [← hlevel, ← hid] at hlen ⊢
    have hsum := discovered_of_count inv₀ h hmem hlen
    omega
  · obtain ⟨l, s', hstep, hlt⟩ := exists_step hended pool
    refine ⟨l, s', hstep, fun heq => ?_⟩
    rw [heq] at hlt
    exact lt_irrefl _ hlt

/-- The provider is asked once, though it suggests itself. -/
theorem discovery_is_bounded_suggested : ∃ labels s₀ s,
    Discovery.start (.ofByte 0) 0 0 = some s₀ ∧ exec (Discovery.step true) s₀ labels = some s ∧
      s.suggested = [(.ofByte 192, "local-0")] ∧ s.asked.Nodup := by
  obtain ⟨s₀, hs₀⟩ := exists_start_first
  have hrun := exec_lonePool true hs₀ ⟨0, [(.ofByte 192, "local-0")]⟩
  exact ⟨_, s₀, _, hs₀, hrun, rfl, ((discovery_is_bounded true hs₀).2 _ _ hrun).1⟩

/-! ### What is not tried -/

/-- Every provider was asked, and every suggested pair was dialled or its peer was connected. -/
def TriedAll (s : Discovery) : Prop :=
  (∀ n ∈ s.listed, n ∈ s.asked) ∧ ∀ c ∈ s.suggested, c ∈ s.dialled ∨ c ∈ s.skipped

/-- No provider and no new candidate is left. -/
def NothingLeft (s : Discovery) : Prop :=
  s.providers = [] ∧ ∀ c ∈ s.candidates, c ∈ s.oldCandidates

/-- If it has ended, then nobody is missing any more, or there was nobody else to try. -/
def EndsWithReason (s : Discovery) : Prop :=
  s.stage.isEnded = true → s.missing = some s.discovered.length ∨ TriedAll s

/-- A step that ends the discovery early finds nobody else to try: a subtraction that
overflows, `connect` or `send_packet` that panics, and a handshake that fails. -/
def EndsAtLast (overflowChecks : Bool) (s : Discovery) : ConnectionPool × DiscoveryLabel → Prop
  | (pool, .count) =>
    missingPeersOf overflowChecks (pool.peersOnBucket s.bucketLevel s.bucketId).length = none →
      NothingLeft s
  | (_, .connect .panics) => NothingLeft s
  | (_, .handshake (.error _)) => NothingLeft s
  | (_, .ask _ false) => NothingLeft s
  | _ => True

/-- With nothing in hand, everything was tried if nothing is left. -/
theorem triedAll_iff (inv : DiscoveryInv s) (hprovider : s.stage.provider? = none)
    (hcandidate : s.stage.candidate? = none) : TriedAll s ↔ NothingLeft s := by
  have hperm := inv.providers.perm
  rw [hprovider] at hperm
  refine and_congr ⟨fun h => ?_, fun h n hn => ?_⟩ ⟨fun h c hc => ?_, fun h c hc => ?_⟩
  · refine List.eq_nil_iff_forall_not_mem.mpr fun n hn => ?_
    have hdisjoint := List.nodup_append.mp (hperm.nodup_iff.mpr inv.providers.nodup)
    have hasked := h n (hperm.mem_iff.mp (List.mem_append_left _ hn))
    exact hdisjoint.2.2 n hn n hasked rfl
  · rw [h] at hperm
    exact hperm.mem_iff.mpr hn
  · rw [inv.candidates.mem_oldCandidates hcandidate]
    exact h c ((inv.candidates.suggested c).mpr (Or.inl hc))
  · rw [← inv.candidates.mem_oldCandidates hcandidate]
    exact ((inv.candidates.suggested c).mp hc).elim (h c) id

theorem inHand_of_isEnded {stage : DiscoveryStage} (h : stage.isEnded = true) :
    stage.provider? = none ∧ stage.candidate? = none := by
  cases stage with
  | returned => exact ⟨rfl, rfl⟩
  | panicked => exact ⟨rfl, rfl⟩
  | _ => cases h

/-- An end that the number of peers does not account for. -/
theorem endsWithReason_iff (inv : DiscoveryInv s) (hended : s.stage.isEnded = true)
    (hmissing : s.missing ≠ some s.discovered.length) : EndsWithReason s ↔ NothingLeft s := by
  obtain ⟨hprovider, hcandidate⟩ := inHand_of_isEnded hended
  rw [← triedAll_iff inv hprovider hcandidate]
  exact ⟨fun h => (h hended).resolve_left hmissing, fun h _ => Or.inr h⟩

namespace MissingInv

/-- As long as peers are missing, fewer were discovered. -/
theorem missing_ne (inv : MissingInv s) (hpos : s.missingPeers ≠ 0) :
    s.missing ≠ some s.discovered.length := by
  intro h
  have hsum := inv.missing _ h
  omega

theorem missing_ne_of_busy (inv : MissingInv s) (hbusy : s.stage.isBusy = true) :
    s.missing ≠ some s.discovered.length := inv.missing_ne (inv.busy hbusy)

end MissingInv

/-- **The steps that end a discovery without a reason** are those that end it early with
somebody left to try. -/
theorem endsWithReason_of_step (inv : DiscoveryInv s)
    (h : s.step overflowChecks (pool, l) = some s') :
    EndsWithReason s' ↔ EndsAtLast overflowChecks s (pool, l) := by
  have inv' := inv.step h
  have htrue : s'.stage.isEnded = false → EndsWithReason s' := by
    intro hended h
    rw [hended] at h
    cases h
  cases step_cases h with
  | count hstage hn =>
    refine iff_of_true (htrue rfl) fun hnone => ?_
    rw [hn] at hnone
    cases hnone
  | overflows hstage hnone =>
    obtain ⟨hmissing, -⟩ := inv.missing.fresh (by rw [hstage]; rfl)
    have hne : s.missing ≠ some s.discovered.length := by
      rw [hmissing]
      exact Option.some_ne_none _ |>.symm
    exact (endsWithReason_iff inv' rfl hne).trans ⟨fun h _ => h, fun h => h hnone⟩
  | fills hstage hzero =>
    refine iff_of_true (fun _ => Or.inl ?_) trivial
    obtain ⟨m, hm⟩ := Option.ne_none_iff_exists'.mp (inv.missing.counted (Or.inl hstage))
    have hsum := inv.missing.missing m hm
    rw [hzero] at hsum
    exact hm.trans (congrArg some hsum.symm)
  | exhausts hstage hpos hnil hnone =>
    refine iff_of_true ((endsWithReason_iff inv' rfl (inv.missing.missing_ne hpos)).mpr ?_) trivial
    refine ⟨hnone, fun c hc => ?_⟩
    rw [hnil] at hc
    cases hc
  | connectPanics hstage =>
    exact endsWithReason_iff inv' rfl (inv.missing.missing_ne_of_busy (by rw [hstage]; rfl))
  | givesUp hstage =>
    exact endsWithReason_iff inv' rfl (inv.missing.missing_ne_of_busy (by rw [hstage]; rfl))
  | askPanics hstage =>
    exact endsWithReason_iff inv' rfl (inv.missing.missing_ne_of_busy (by rw [hstage]; rfl))
  | ignores hstage _ => exact iff_of_true (htrue (by rw [hstage]; rfl)) trivial
  | repeats hstage => exact iff_of_true (htrue (by rw [hstage]; rfl)) trivial
  | _ => exact iff_of_true (htrue rfl) trivial

/-- **A discovery tries everybody** until nobody is missing, exactly in the runs in which
nothing ends it early with somebody left to try. -/
theorem discovery_tries_all_iff (overflowChecks : Bool) {self : PeerID} {bucketLevel bucketId : ℕ}
    {s₀ s : Discovery} (hstart : Discovery.start self bucketLevel bucketId = some s₀)
    {labels : List (ConnectionPool × DiscoveryLabel)}
    (hrun : exec (Discovery.step overflowChecks) s₀ labels = some s) :
    Always (Discovery.step overflowChecks) EndsWithReason s₀ labels ↔
      Meets (Discovery.step overflowChecks) (EndsAtLast overflowChecks) s₀ labels := by
  refine always_iff_meets_of_step (J := DiscoveryInv) (fun _ _ _ inv h => inv.step h)
    (fun _ _ _ inv _ h => endsWithReason_of_step inv h) hrun (DiscoveryInv.start hstart) ?_
  intro hended
  rw [(fresh_of_start hstart).1] at hended
  cases hended

/-- With seven peers still missing, the discovery has tried its only provider and the only peer
that it suggested. -/
theorem discovery_tries_all_iff_findsOne : ∃ s₀ s,
    Discovery.start (.ofByte 0) 0 0 = some s₀ ∧
      exec (Discovery.step false) s₀ findsOne = some s ∧ s.stage = .returned ∧
      s.missing = some 8 ∧ s.discovered = [.ofByte 64] ∧
      Always (Discovery.step false) EndsWithReason s₀ findsOne := by
  obtain ⟨s₀, hs₀⟩ := exists_start_first
  obtain ⟨s, hrun, hreturned, -, -, hdiscovered, hmissing⟩ := exec_findsOne false hs₀
  refine ⟨s₀, s, hs₀, hrun, hreturned, hmissing, hdiscovered,
    (discovery_tries_all_iff false hs₀ hrun).mpr ?_⟩
  have hcount : ∀ len, missingPeersOf false len ≠ none := by
    intro len
    rw [missingPeersOf]
    split <;> simp
  exact meets_of_forall (by simp [findsOne, asksOne, dialsOne, meetsOne, EndsAtLast, hcount])

/-- The provider suggests two peers.  The last of them is dialled first and fails in the
handshake, and the other is not dialled at all. -/
theorem discovery_leaves_candidate : ∃ labels s₀ s,
    Discovery.start (.ofByte 0) 0 0 = some s₀ ∧ exec (Discovery.step true) s₀ labels = some s ∧
      s.stage = .returned ∧ s.missing = some 8 ∧ s.discovered = [] ∧
      s.suggested = [(.ofByte 64, "local-1"), (.ofByte 65, "local-2")] ∧
      s.dialled = [(.ofByte 65, "local-2")] ∧ s.skipped = [] ∧ ¬ EndsWithReason s := by
  obtain ⟨s₀, hs₀⟩ := exists_start_first
  have hcontains : lonePool.contains (.ofByte 65) = false := lonePool_contains_of_ne (by decide)
  obtain ⟨labels, hrun⟩ := exec_lonePool_dial true hs₀ [(.ofByte 64, "local-1")]
    (.ofByte 65, "local-2") hcontains
  refine ⟨labels ++ [(lonePool, .connect .connected),
    (lonePool, .handshake (.error .alreadyConnected))], s₀, _, hs₀, exec_append_of hrun, rfl, rfl,
    rfl, rfl, rfl, rfl, fun h => ?_⟩
  rcases h rfl with hmissing | ⟨-, hall⟩
  · cases hmissing
  · have hmem := hall (.ofByte 64, "local-1") List.mem_cons_self
    simp [dialled, PeerID.ofByte] at hmem

end Tewta
