import Tewta.Node.Buckets
import Tewta.Node.DiscoverPeers

/-!
# What a discovery has tried

Three accounts are kept by every step, whatever arrives and whatever the pool is: a provider of
the list is still in it, about to be asked, or asked (`ProvidersInv`); a suggested pair is still
among the candidates, in hand, skipped because its peer was connected, or dialled
(`CandidatesInv`); and a missing peer is still missing or discovered (`MissingInv`).  So nobody
is asked and nothing is dialled twice.
-/

namespace Tewta

open PeerID Transition

namespace DiscoveryStage

/-- The candidate that is neither skipped nor dialled yet. -/
def candidate? : DiscoveryStage → Option (PeerID × String)
  | .checking candidate => some candidate
  | _ => none

/-- The provider that is not asked yet. -/
def provider? : DiscoveryStage → Option PeerID
  | .asking provider => some provider
  | _ => none

/-- Before the loop. -/
def isFresh : DiscoveryStage → Bool
  | .listing => true
  | .counting => true
  | _ => false

/-- Inside the loop. -/
def isBusy : DiscoveryStage → Bool
  | .checking _ => true
  | .connecting _ => true
  | .handshaking _ => true
  | .asking _ => true
  | .awaiting _ _ => true
  | _ => false

/-- From the choice of a provider to its response. -/
def isAsking : DiscoveryStage → Bool
  | .asking _ => true
  | .awaiting _ _ => true
  | _ => false

def isEnded : DiscoveryStage → Bool
  | .returned => true
  | .panicked => true
  | _ => false

end DiscoveryStage

open DiscoveryStage Discovery

/-- What was dialled. -/
def Discovery.dialled (s : Discovery) : List (PeerID × String) := s.dials.map Dial.pair

variable {overflowChecks : Bool} {s s' : Discovery} {pool : ConnectionPool} {l : DiscoveryLabel}

theorem Discovery.aim_of_step (h : s.step overflowChecks (pool, l) = some s') :
    s'.bucketLevel = s.bucketLevel ∧ s'.bucketId = s.bucketId ∧ s'.target = s.target ∧
      s'.mask = s.mask := by
  cases step_cases h with
  | _ => exact ⟨rfl, rfl, rfl, rfl⟩

/-! ### Providers -/

structure ProvidersInv (s : Discovery) : Prop where
  nodup : s.listed.Nodup
  perm : (s.providers ++ (s.stage.provider?.toList ++ s.asked)).Perm s.listed
  fresh : s.stage.isFresh = true → s.asked = []

namespace ProvidersInv

theorem congr (inv : ProvidersInv s) (hlisted : s'.listed = s.listed)
    (hproviders : s'.providers = s.providers) (hasked : s'.asked = s.asked)
    (hprovider : s'.stage.provider? = s.stage.provider?)
    (hfresh : s'.stage.isFresh = true → s.stage.isFresh = true) : ProvidersInv s' := by
  refine ⟨by rw [hlisted]; exact inv.nodup, ?_, fun h => hasked.trans (inv.fresh (hfresh h))⟩
  rw [hlisted, hproviders, hasked, hprovider]
  exact inv.perm

theorem ask (inv : ProvidersInv s) {provider : PeerID} {stage : DiscoveryStage}
    (hstage : s.stage = .asking provider) (hprovider : stage.provider? = none)
    (hfresh : stage.isFresh = false) :
    ProvidersInv { s with stage, asked := s.asked ++ [provider] } := by
  refine ⟨inv.nodup, ?_, fun h => ?_⟩
  · have hperm := inv.perm
    rw [hstage] at hperm
    refine List.Perm.trans (List.Perm.append_left _ ?_) hperm
    show (stage.provider?.toList ++ (s.asked ++ [provider])).Perm ([provider] ++ s.asked)
    rw [hprovider]
    exact List.perm_append_singleton provider s.asked
  · rw [hfresh] at h
    cases h

theorem step (inv : ProvidersInv s) (h : s.step overflowChecks (pool, l) = some s') :
    ProvidersInv s' := by
  cases step_cases h with
  | list hstage =>
    have hasked := inv.fresh (by rw [hstage]; rfl)
    refine ⟨pool.nodup_peers.filter _, ?_, fun _ => hasked⟩
    show (_ ++ ([] ++ s.asked)).Perm _
    rw [hasked, List.append_nil, List.append_nil]
  | turnsTo hstage hpos hnil hlast =>
    refine ⟨inv.nodup, ?_, fun h => (nomatch h)⟩
    have hperm := inv.perm
    rw [hstage, hlast, List.append_assoc] at hperm
    exact hperm
  | asks hstage => exact inv.ask hstage rfl rfl
  | askPanics hstage => exact inv.ask hstage rfl rfl
  | ignores _ _ => exact inv
  | _ => exact inv.congr rfl rfl rfl (by simp [*, provider?]) (by simp [*, isFresh])

/-- **Nobody is asked twice.** -/
theorem nodup_asked (inv : ProvidersInv s) : s.asked.Nodup := by
  have h := inv.perm.nodup_iff.mpr inv.nodup
  exact (List.nodup_append.mp (List.nodup_append.mp h).2.1).2.1

end ProvidersInv

/-! ### Candidates -/

structure CandidatesInv (s : Discovery) : Prop where
  nodup : s.oldCandidates.Nodup
  perm : (s.stage.candidate?.toList ++ (s.skipped ++ s.dialled)).Perm s.oldCandidates
  suggested : ∀ c, c ∈ s.suggested ↔ c ∈ s.candidates ∨ c ∈ s.oldCandidates
  response : ∃ popped, s.response = s.candidates ++ (s.stage.candidate?.toList ++ popped)
  asking : s.stage.isAsking = true → s.candidates = []

namespace CandidatesInv

theorem congr (inv : CandidatesInv s) (hold : s'.oldCandidates = s.oldCandidates)
    (hskipped : s'.skipped = s.skipped) (hdials : s'.dials = s.dials)
    (hsuggested : s'.suggested = s.suggested) (hcandidates : s'.candidates = s.candidates)
    (hresponse : s'.response = s.response)
    (hcandidate : s'.stage.candidate? = s.stage.candidate?)
    (hasking : s'.stage.isAsking = true → s.stage.isAsking = true) : CandidatesInv s' := by
  refine ⟨?_, ?_, ?_, ?_, fun h => hcandidates.trans (inv.asking (hasking h))⟩
  · rw [hold]
    exact inv.nodup
  · rw [hcandidate, hskipped, dialled, hdials, hold]
    exact inv.perm
  · rw [hsuggested, hcandidates, hold]
    exact inv.suggested
  · rw [hresponse, hcandidates, hcandidate]
    exact inv.response

theorem tries (inv : CandidatesInv s) {candidate : PeerID × String}
    {candidates : List (PeerID × String)} (hstage : s.stage = .looping)
    (hlast : s.candidates = candidates ++ [candidate]) (hnew : candidate ∉ s.oldCandidates) :
    CandidatesInv { s with
      candidates
      oldCandidates := candidate :: s.oldCandidates
      stage := .checking candidate } := by
  refine ⟨List.nodup_cons.mpr ⟨hnew, inv.nodup⟩, ?_, fun c => ?_, ?_, fun h => (nomatch h)⟩
  · have hperm := inv.perm
    rw [hstage] at hperm
    exact hperm.cons candidate
  · rw [inv.suggested, hlast, List.mem_append, List.mem_singleton, List.mem_cons, or_assoc]
  · obtain ⟨popped, hresponse⟩ := inv.response
    rw [hstage, hlast, List.append_assoc] at hresponse
    exact ⟨popped, hresponse⟩

theorem step (inv : CandidatesInv s) (h : s.step overflowChecks (pool, l) = some s') :
    CandidatesInv s' := by
  cases step_cases h with
  | @repeats candidate candidates hstage hpos hlast hold =>
    refine ⟨inv.nodup, inv.perm, fun c => ?_, ?_, fun h => by rw [hstage] at h; cases h⟩
    · rw [inv.suggested, hlast, List.mem_append, List.mem_singleton, or_assoc]
      refine or_congr_right ⟨?_, Or.inr⟩
      rintro (rfl | hc)
      · exact hold
      · exact hc
    · obtain ⟨popped, hresponse⟩ := inv.response
      rw [hstage, hlast, List.append_assoc] at hresponse
      exact ⟨[candidate] ++ popped, hresponse.trans (by rw [hstage]; rfl)⟩
  | tries hstage hpos hlast hnew => exact inv.tries hstage hlast hnew
  | @skips candidate hstage hcontains =>
    obtain ⟨popped, hresponse⟩ := inv.response
    have hperm := inv.perm
    rw [hstage] at hperm hresponse
    refine ⟨inv.nodup, ?_, inv.suggested, ⟨candidate :: popped, hresponse⟩, fun h => (nomatch h)⟩
    refine List.Perm.trans ?_ hperm
    show ((s.skipped ++ [candidate]) ++ s.dialled).Perm (candidate :: (s.skipped ++ s.dialled))
    rw [List.append_assoc]
    exact List.perm_middle
  | @dials candidate hstage hcontains =>
    obtain ⟨popped, hresponse⟩ := inv.response
    have hperm := inv.perm
    rw [hstage] at hperm hresponse
    refine ⟨inv.nodup, ?_, inv.suggested, ⟨candidate :: popped, hresponse⟩, fun h => (nomatch h)⟩
    refine List.Perm.trans ?_ hperm
    let dial : Dial := ⟨candidate, s.response, s.followed, s.oldCandidates, pool⟩
    have hdialled : (s.dials ++ [dial]).map Dial.pair = s.dialled ++ [candidate] := List.map_append
    show (s.skipped ++ (s.dials ++ [dial]).map Dial.pair).Perm _
    rw [hdialled, ← List.append_assoc]
    exact List.perm_append_singleton candidate _
  | @turnsTo provider providers hstage hpos hnil hlast =>
    have hperm := inv.perm
    have hresponse := inv.response
    rw [hstage] at hperm hresponse
    exact ⟨inv.nodup, hperm, inv.suggested, hresponse, fun _ => hnil⟩
  | @receives provider resp hstage =>
    have hperm := inv.perm
    rw [hstage] at hperm
    have hnil : s.candidates = [] := inv.asking (by rw [hstage]; rfl)
    refine ⟨inv.nodup, hperm, fun c => ?_, ⟨[], (List.append_nil _).symm⟩, fun h => (nomatch h)⟩
    rw [List.mem_append, inv.suggested, hnil, or_comm (a := c ∈ resp.peers)]
    simp
  | ignores _ _ => exact inv
  | _ => exact inv.congr rfl rfl rfl rfl rfl rfl (by simp [*, candidate?]) (by simp [*, isAsking])

/-- **Nothing is dialled twice.** -/
theorem nodup_dialled (inv : CandidatesInv s) : s.dialled.Nodup := by
  have h := inv.perm.nodup_iff.mpr inv.nodup
  exact (List.nodup_append.mp (List.nodup_append.mp h).2.1).2.1

/-- With no candidate in hand, what was tried was skipped or dialled. -/
theorem mem_oldCandidates (inv : CandidatesInv s) (hstage : s.stage.candidate? = none)
    {c : PeerID × String} : c ∈ s.oldCandidates ↔ c ∈ s.dialled ∨ c ∈ s.skipped := by
  have h := inv.perm
  rw [hstage] at h
  rw [← h.mem_iff, List.mem_append, List.mem_append, or_comm (a := c ∈ s.skipped)]
  simp

end CandidatesInv

/-! ### Missing peers -/

structure MissingInv (s : Discovery) : Prop where
  fresh : s.stage.isFresh = true → s.missing = none ∧ s.discovered = []
  missing : ∀ m, s.missing = some m → s.discovered.length + s.missingPeers = m
  counted : s.stage = .looping ∨ s.stage.isBusy = true → s.missing ≠ none
  busy : s.stage.isBusy = true → s.missingPeers ≠ 0

namespace MissingInv

theorem congr (inv : MissingInv s) (hmissing : s'.missing = s.missing)
    (hdiscovered : s'.discovered = s.discovered) (hmissingPeers : s'.missingPeers = s.missingPeers)
    (hfresh : s'.stage.isFresh = true → s.stage.isFresh = true)
    (hcounted : s'.stage = .looping ∨ s'.stage.isBusy = true →
      s.stage = .looping ∨ s.stage.isBusy = true)
    (hbusy : s'.stage.isBusy = true → s.stage.isBusy = true ∨ s.missingPeers ≠ 0) :
    MissingInv s' := by
  refine ⟨fun h => ?_, ?_, fun h => ?_, fun h => ?_⟩
  · rw [hmissing, hdiscovered]
    exact inv.fresh (hfresh h)
  · rw [hmissing, hdiscovered, hmissingPeers]
    exact inv.missing
  · rw [hmissing]
    exact inv.counted (hcounted h)
  · rw [hmissingPeers]
    exact (hbusy h).elim inv.busy id

theorem step (inv : MissingInv s) (h : s.step overflowChecks (pool, l) = some s') :
    MissingInv s' := by
  cases step_cases h with
  | @count n hstage hn =>
    obtain ⟨-, hdiscovered⟩ := inv.fresh (by rw [hstage]; rfl)
    refine ⟨fun h => (nomatch h), fun m hm => ?_, fun _ h => (nomatch h), fun h => (nomatch h)⟩
    cases hm
    rw [hdiscovered]
    exact Nat.zero_add _
  | @discovers candidate hstage =>
    have hpos := inv.busy (by rw [hstage]; rfl)
    have hcounted := inv.counted (Or.inr (by rw [hstage]; rfl))
    refine ⟨fun h => (nomatch h), fun m hm => ?_, fun _ => hcounted, fun h => (nomatch h)⟩
    have hsum := inv.missing m hm
    rw [List.length_append, List.length_singleton]
    show s.discovered.length + 1 + (s.missingPeers - 1) = m
    omega
  | ignores _ _ => exact inv
  | _ =>
    exact inv.congr rfl rfl rfl (by simp [*, isFresh]) (by simp [*, isBusy]) (by simp [*, isBusy])

/-- **Peers are counted once**, and what is missing then is what the account starts with. -/
theorem missing_of_exec (inv : MissingInv s) {n : ℕ}
    {labels : List (ConnectionPool × DiscoveryLabel)} (hn : s.missing = some n)
    (h : exec (Discovery.step overflowChecks) s labels = some s') : s'.missing = some n := by
  refine (invariant_of_exec (I := fun s => MissingInv s ∧ s.missing = some n) ?_ h ⟨inv, hn⟩).2
  rintro s ⟨pool, l⟩ t ⟨inv, hn⟩ hstep
  refine ⟨inv.step hstep, ?_⟩
  cases step_cases hstep with
  | count hstage _ =>
    obtain ⟨hnone, -⟩ := inv.fresh (by rw [hstage]; rfl)
    rw [hnone] at hn
    cases hn
  | _ => exact hn

end MissingInv

/-! ### The three of them -/

/-- Providers, candidates and missing peers are accounted for. -/
structure DiscoveryInv (s : Discovery) : Prop where
  providers : ProvidersInv s
  candidates : CandidatesInv s
  missing : MissingInv s

namespace DiscoveryInv

theorem start {self : PeerID} {bucketLevel bucketId : ℕ}
    (h : Discovery.start self bucketLevel bucketId = some s) : DiscoveryInv s := by
  rw [Discovery.start] at h
  split at h
  · obtain ⟨target, -, rfl⟩ := Option.map_eq_some_iff.mp h
    refine ⟨⟨List.nodup_nil, .refl _, fun _ => rfl⟩,
      ⟨List.nodup_nil, .refl _, by simp, ⟨[], rfl⟩, fun _ => rfl⟩,
      ⟨fun _ => ⟨rfl, rfl⟩, ?_, by simp [isBusy], ?_⟩⟩
    · rintro _ ⟨⟩
    · rintro ⟨⟩
  · cases h

theorem step (inv : DiscoveryInv s) (h : s.step overflowChecks (pool, l) = some s') :
    DiscoveryInv s' :=
  ⟨inv.providers.step h, inv.candidates.step h, inv.missing.step h⟩

end DiscoveryInv

/-! ### A provider that answers -/

/-- The pool with the one provider of the examples. -/
def lonePool : ConnectionPool :=
  (ConnectionPool.new (.ofByte 0)).insert (.ofByte 192) ⟨"local-0", 0, none, 0⟩

theorem lonePool_contains_of_ne {n : PeerID} (h : PeerID.ofByte 192 ≠ n) :
    lonePool.contains n = false := by
  rw [ConnectionPool.contains_eq_isSome, lonePool, ConnectionPool.getElem?_insert, if_neg h]
  simp [ConnectionPool.new]

theorem exists_start_first : ∃ s₀, Discovery.start (.ofByte 0) 0 0 = some s₀ := by
  rw [Discovery.start, dif_pos (by decide), generateInBucket_eq _ (by decide) (by decide)]
  exact ⟨_, rfl⟩

/-- The provider is asked for peers of the first bucket, of which the pool has none. -/
theorem exec_lonePool (overflowChecks : Bool) {s₀ : Discovery}
    (hstart : Discovery.start (.ofByte 0) 0 0 = some s₀) (resp : DiscoverPeersRespPacket) :
    exec (Discovery.step overflowChecks) s₀ [(lonePool, .list), (lonePool, .count),
        (lonePool, .turn), (lonePool, .ask resp.requestId true),
        (lonePool, .receive (.ofByte 192) resp)] = some
      { s₀ with
        providers := []
        missingPeers := kademliaBucketSize
        stage := .looping
        listed := [.ofByte 192]
        missing := some kademliaBucketSize
        asked := [.ofByte 192]
        candidates := resp.peers
        oldCandidates := []
        suggested := resp.peers
        response := resp.peers
        followed := []
        dials := []
        skipped := []
        discovered := [] } := by
  refine exec_answer hstart ?_ ?_ resp
  · exact ConnectionPool.peersOnBucketAndUnder_insert_new _ _ _ ⟨(0, 2), by decide, le_rfl⟩
  · refine List.eq_nil_iff_forall_not_mem.mpr fun n hn => ?_
    obtain ⟨hn, hbucket⟩ := lonePool.mem_peersOnBucket (b := (0, 0)) |>.mp hn
    rw [lonePool, ConnectionPool.peers_insert_new, List.mem_singleton] at hn
    subst hn
    exact absurd hbucket (by decide)

/-- The last of the peers that it suggests is dialled first. -/
theorem exec_lonePool_dial (overflowChecks : Bool) {s₀ : Discovery}
    (hstart : Discovery.start (.ofByte 0) 0 0 = some s₀) (candidates : List (PeerID × String))
    (candidate : PeerID × String) (hcontains : lonePool.contains candidate.1 = false) :
    ∃ labels, exec (Discovery.step overflowChecks) s₀ labels = some
      { s₀ with
        providers := []
        missingPeers := kademliaBucketSize
        stage := .connecting candidate
        listed := [.ofByte 192]
        missing := some kademliaBucketSize
        asked := [.ofByte 192]
        candidates
        oldCandidates := [candidate]
        suggested := candidates ++ [candidate]
        response := candidates ++ [candidate]
        followed := [candidate]
        dials := [⟨candidate, candidates ++ [candidate], [], [candidate], lonePool⟩]
        skipped := []
        discovered := [] } := by
  have hrun := exec_lonePool overflowChecks hstart ⟨0, candidates ++ [candidate]⟩
  exact ⟨_, (exec_append_of hrun).trans
    (exec_dial rfl (Nat.succ_ne_zero 7) rfl List.not_mem_nil hcontains)⟩

/-! ### A peer that is found -/

/-- The pool after the peer has joined. -/
def joinedPool : ConnectionPool := lonePool.insert (.ofByte 64) ⟨"local-1", 1, none, 1⟩

/-- The provider suggests one peer, which is dialled and discovered. -/
def asksOne : List (ConnectionPool × DiscoveryLabel) :=
  [(lonePool, .list), (lonePool, .count), (lonePool, .turn), (lonePool, .ask 0 true),
    (lonePool, .receive (.ofByte 192) ⟨0, [(.ofByte 64, "local-1")]⟩)]

def dialsOne : List (ConnectionPool × DiscoveryLabel) := [(lonePool, .turn), (lonePool, .check)]

def meetsOne : List (ConnectionPool × DiscoveryLabel) :=
  [(lonePool, .connect .connected), (lonePool, .handshake (.ok (.ofByte 64)))]

def findsOne : List (ConnectionPool × DiscoveryLabel) :=
  asksOne ++ (dialsOne ++ (meetsOne ++ [(joinedPool, DiscoveryLabel.turn)]))

theorem eq_of_met_findsOne {pool : ConnectionPool} {n : PeerID}
    (h : (pool, DiscoveryLabel.handshake (.ok n)) ∈ findsOne) : n = .ofByte 64 := by
  simp [findsOne, asksOne, dialsOne, meetsOne] at h
  exact h.2

theorem exec_findsOne (overflowChecks : Bool) {s₀ : Discovery}
    (hstart : Discovery.start (.ofByte 0) 0 0 = some s₀) : ∃ s,
    exec (Discovery.step overflowChecks) s₀ findsOne = some s ∧ s.stage = .returned ∧
      s.listed = [.ofByte 192] ∧ s.dialled = [(.ofByte 64, "local-1")] ∧
      s.discovered = [.ofByte 64] ∧ s.missing = some 8 := by
  have hcontains : lonePool.contains (.ofByte 64) = false := lonePool_contains_of_ne (by decide)
  have hrun := exec_lonePool overflowChecks hstart ⟨0, [(.ofByte 64, "local-1")]⟩
  rw [findsOne, asksOne, dialsOne, meetsOne, exec_append_of hrun,
    exec_append_of (exec_dial rfl (Nat.succ_ne_zero 7)
      (List.nil_append [(PeerID.ofByte 64, "local-1")]).symm List.not_mem_nil hcontains),
    exec_append_of (exec_discover lonePool
      (show _ = DiscoveryStage.connecting (.ofByte 64, "local-1") from rfl))]
  exact ⟨_, exec_singleton _ _, rfl, rfl, rfl, rfl, rfl⟩

/-- What a run of it meets, apart from the check of the peer that is found. -/
theorem meets_findsOne (overflowChecks : Bool)
    {ok : Discovery → ConnectionPool × DiscoveryLabel → Prop} {s₀ : Discovery}
    (hstart : Discovery.start (.ofByte 0) 0 0 = some s₀)
    (hok : ∀ s pool l, l ≠ .check → ok s (pool, l))
    (hcheck : ∀ s : Discovery, s.target = s₀.target → s.mask = s₀.mask →
      s.stage = .checking (.ofByte 64, "local-1") → s.candidates = [] → s.followed = [] →
        ok s (lonePool, .check)) :
    Meets (Discovery.step overflowChecks) ok s₀ findsOne := by
  have hcontains : lonePool.contains (.ofByte 64) = false := lonePool_contains_of_ne (by decide)
  have hlast : [(PeerID.ofByte 64, "local-1")] = [] ++ [(PeerID.ofByte 64, "local-1")] := rfl
  have hasks := exec_lonePool overflowChecks hstart ⟨0, [(.ofByte 64, "local-1")]⟩
  refine Meets.append (meets_of_forall ?_) hasks (Meets.append
    (meets_dial rfl (Nat.succ_ne_zero 7) hlast List.not_mem_nil (hok _ _ _ ?_)
      (hcheck _ rfl rfl rfl rfl rfl))
    (exec_dial rfl (Nat.succ_ne_zero 7) hlast List.not_mem_nil hcontains) (meets_of_forall ?_))
  · simp [asksOne, hok]
  · exact nofun
  · simp [meetsOne, hok]

end Tewta
