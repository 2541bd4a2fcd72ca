import Tewta.Handshake.Machine
import Tewta.Lib.Transition
import Tewta.Node.Discovery

/-!
# Discovering the peers of a bucket

`discover_peers_in_bucket` asks the connected peers of the levels up to that of a bucket, one
after the other, for peers of it, and dials those that they suggest until no peer is missing
in the bucket.

A step is what it does between two waits, or one turn of its loop without any; each step comes
with the pool that it finds, as others insert and remove peers in between.  What is waited for
is in the label: a connection, the end of a handshake, a write, and the responses that arrive
at the listener, of whatever content.
-/

namespace Tewta

open PeerID Transition

def kademliaBucketSize : ℕ := 8

theorem kademliaBucketSize_pos : 0 < kademliaBucketSize := Nat.succ_pos 7

/-- Where `discover_peers_in_bucket` stands. -/
inductive DiscoveryStage
  /-- before `peers_on_bucket_and_under` -/
  | listing
  /-- before `peers_on_bucket` -/
  | counting
  /-- at the beginning of the loop -/
  | looping
  /-- with a candidate, before `contains` -/
  | checking (candidate : PeerID × String)
  /-- in `connect` -/
  | connecting (candidate : PeerID × String)
  /-- in `handshake` -/
  | handshaking (candidate : PeerID × String)
  /-- with a provider that is not yet asked -/
  | asking (provider : PeerID)
  /-- before the response of a provider -/
  | awaiting (provider : PeerID) (requestId : UInt32)
  | returned
  | panicked
  deriving DecidableEq

/-- A candidate that is dialled: the response it is from, the pairs of that response that were
dialled before, the pairs that were tried before, and the pool. -/
structure Dial where
  pair : PeerID × String
  response : List (PeerID × String)
  earlier : List (PeerID × String)
  tried : List (PeerID × String)
  pool : ConnectionPool

/-- The variables of `discover_peers_in_bucket`.  `oldCandidates` is a set in the sources; the
list has the latest first.  The fields from `listed` on record what was done: the providers at
the beginning, `missing_peers` at the beginning, who was asked, what was suggested, the last
response and the pairs of it that were dialled, all that was dialled, the pairs whose peer was
connected, and the peers with whom a handshake succeeded. -/
structure Discovery where
  bucketLevel : ℕ
  bucketId : ℕ
  target : PeerID
  mask : Mask
  providers : List PeerID
  candidates : List (PeerID × String)
  oldCandidates : List (PeerID × String)
  missingPeers : ℕ
  stage : DiscoveryStage
  listed : List PeerID
  missing : Option ℕ
  asked : List PeerID
  suggested : List (PeerID × String)
  response : List (PeerID × String)
  followed : List (PeerID × String)
  dials : List Dial
  skipped : List (PeerID × String)
  discovered : List PeerID

/-- What `connect` comes to. -/
inductive ConnectOutcome
  | connected
  | unreachable
  | panics
  deriving DecidableEq

inductive DiscoveryLabel
  /-- `peers_on_bucket_and_under` -/
  | list
  /-- `peers_on_bucket` -/
  | count
  /-- one turn of the loop, up to its next wait -/
  | turn
  /-- `contains` -/
  | check
  /-- `connect` ends -/
  | connect (outcome : ConnectOutcome)
  /-- `handshake` ends -/
  | handshake (result : Except HandshakeError PeerID)
  /-- a number is taken for a request, which is sent to the provider -/
  | ask (requestId : UInt32) (writes : Bool)
  /-- a response arrives -/
  | receive (n : PeerID) (resp : DiscoverPeersRespPacket)

/-- `KADEMLIA_BUCKET_SIZE - len` for a `usize`, in a build that checks for overflows or in one
that does not. -/
def missingPeersOf (overflowChecks : Bool) (len : ℕ) : Option ℕ :=
  if len ≤ kademliaBucketSize then some (kademliaBucketSize - len)
  else if overflowChecks then none else some (UInt64.size + kademliaBucketSize - len)

theorem missingPeersOf_of_le (overflowChecks : Bool) {len : ℕ} (h : len ≤ kademliaBucketSize) :
    missingPeersOf overflowChecks len = some (kademliaBucketSize - len) := if_pos h

namespace Discovery

/-- `discover_peers_in_bucket` after its assertion. -/
def start (self : PeerID) (bucketLevel bucketId : ℕ) : Option Discovery :=
  if h : bucketLevel < 128 ∧ bucketId < 3 then
    (self.generateInBucket bucketLevel bucketId).map fun target =>
      { bucketLevel, bucketId, target
        mask := ⟨levelMask bucketLevel, levelMask_length_le h.1⟩
        providers := []
        candidates := []
        oldCandidates := []
        missingPeers := 0
        stage := .listing
        listed := []
        missing := none
        asked := []
        suggested := []
        response := []
        followed := []
        dials := []
        skipped := []
        discovered := [] }
  else none

theorem bucket_of_start {self : PeerID} {bucketLevel bucketId : ℕ} {s : Discovery}
    (h : start self bucketLevel bucketId = some s) :
    s.bucketLevel = bucketLevel ∧ s.bucketId = bucketId := by
  rw [start] at h
  split at h
  · obtain ⟨target, -, rfl⟩ := Option.map_eq_some_iff.mp h
    exact ⟨rfl, rfl⟩
  · cases h

theorem fresh_of_start {self : PeerID} {bucketLevel bucketId : ℕ} {s : Discovery}
    (h : start self bucketLevel bucketId = some s) :
    s.stage = .listing ∧ s.dials = [] ∧ s.discovered = [] := by
  rw [start] at h
  split at h
  · obtain ⟨target, -, rfl⟩ := Option.map_eq_some_iff.mp h
    exact ⟨rfl, rfl, rfl⟩
  · cases h

/-- One turn of the loop, up to its next wait. -/
def turn (s : Discovery) : Discovery :=
  if s.missingPeers = 0 then { s with stage := .returned }
  else
    match s.candidates.getLast? with
    | some candidate =>
      if candidate ∈ s.oldCandidates then { s with candidates := s.candidates.dropLast }
      else
        { s with
          candidates := s.candidates.dropLast
          oldCandidates := candidate :: s.oldCandidates
          stage := .checking candidate }
    | none =>
      match s.providers.getLast? with
      | some provider =>
        { s with providers := s.providers.dropLast, stage := .asking provider }
      | none => { s with stage := .returned }

/-- A peer that is not connected is dialled.  That it matches is looked at before that, and
there is a warning if it does not. -/
def check (s : Discovery) (pool : ConnectionPool) (candidate : PeerID × String) : Discovery :=
  if pool.contains candidate.1 then
    { s with stage := .looping, skipped := s.skipped ++ [candidate] }
  else
    { s with
      stage := .connecting candidate
      followed := s.followed ++ [candidate]
      dials := s.dials ++ [⟨candidate, s.response, s.followed, s.oldCandidates, pool⟩] }

/-- A response is taken if it is the one that is waited for. -/
def receive (s : Discovery) (provider : PeerID) (requestId : UInt32) (n : PeerID)
    (resp : DiscoverPeersRespPacket) : Discovery :=
  if resp.requestId = requestId ∧ n = provider then
    { s with
      candidates := resp.peers
      stage := .looping
      suggested := s.suggested ++ resp.peers
      response := resp.peers
      followed := [] }
  else s

variable (overflowChecks : Bool)

/-- One step, with the pool that it finds.  A handshake with an expected peer succeeds with
that peer only. -/
def step (s : Discovery) : ConnectionPool × DiscoveryLabel → Option Discovery
  | (pool, .list) =>
    match s.stage with
    | .listing =>
      let providers := pool.peersOnBucketAndUnder s.bucketLevel
      some { s with providers, stage := .counting, listed := providers }
    | _ => none
  | (pool, .count) =>
    match s.stage with
    | .counting =>
      match missingPeersOf overflowChecks (pool.peersOnBucket s.bucketLevel s.bucketId).length with
      | some n => some { s with missingPeers := n, stage := .looping, missing := some n }
      | none => some { s with stage := .panicked }
    | _ => none
  | (_, .turn) =>
    match s.stage with
    | .looping => some s.turn
    | _ => none
  | (pool, .check) =>
    match s.stage with
    | .checking candidate => some (s.check pool candidate)
    | _ => none
  | (_, .connect outcome) =>
    match s.stage with
    | .connecting candidate =>
      match outcome with
      | .connected => some { s with stage := .handshaking candidate }
      | .unreachable => some { s with stage := .looping }
      | .panics => some { s with stage := .panicked }
    | _ => none
  | (_, .handshake result) =>
    match s.stage with
    | .handshaking candidate =>
      match result with
      | .ok n =>
        if n = candidate.1 then
          some
            { s with
              missingPeers := s.missingPeers - 1
              stage := .looping
              discovered := s.discovered ++ [n] }
        else none
      | .error _ => some { s with stage := .returned }
    | _ => none
  | (_, .ask requestId writes) =>
    match s.stage with
    | .asking provider =>
      let stage := if writes then .awaiting provider requestId else .panicked
      some { s with stage, asked := s.asked ++ [provider] }
    | _ => none
  | (_, .receive n resp) =>
    match s.stage with
    | .awaiting provider requestId => some (s.receive provider requestId n resp)
    | _ => none

/-- What one step can be. -/
inductive Steps (s : Discovery) (pool : ConnectionPool) : DiscoveryLabel → Discovery → Prop
  | list : s.stage = .listing → Steps s pool .list
      { s with
        providers := pool.peersOnBucketAndUnder s.bucketLevel
        stage := .counting
        listed := pool.peersOnBucketAndUnder s.bucketLevel }
  | count {n} : s.stage = .counting → missingPeersOf overflowChecks
        (pool.peersOnBucket s.bucketLevel s.bucketId).length = some n →
      Steps s pool .count { s with missingPeers := n, stage := .looping, missing := some n }
  | overflows : s.stage = .counting → missingPeersOf overflowChecks
        (pool.peersOnBucket s.bucketLevel s.bucketId).length = none →
      Steps s pool .count { s with stage := .panicked }
  | fills : s.stage = .looping → s.missingPeers = 0 →
      Steps s pool .turn { s with stage := .returned }
  | repeats {candidate candidates} : s.stage = .looping → s.missingPeers ≠ 0 →
      s.candidates = candidates ++ [candidate] → candidate ∈ s.oldCandidates →
      Steps s pool .turn { s with candidates }
  | tries {candidate candidates} : s.stage = .looping → s.missingPeers ≠ 0 →
      s.candidates = candidates ++ [candidate] → candidate ∉ s.oldCandidates →
      Steps s pool .turn { s with
        candidates
        oldCandidates := candidate :: s.oldCandidates
        stage := .checking candidate }
  | turnsTo {provider providers} : s.stage = .looping → s.missingPeers ≠ 0 → s.candidates = [] →
      s.providers = providers ++ [provider] →
      Steps s pool .turn { s with providers, stage := .asking provider }
  | exhausts : s.stage = .looping → s.missingPeers ≠ 0 → s.candidates = [] → s.providers = [] →
      Steps s pool .turn { s with stage := .returned }
  | skips {candidate} : s.stage = .checking candidate → pool.contains candidate.1 = true →
      Steps s pool .check { s with stage := .looping, skipped := s.skipped ++ [candidate] }
  | dials {candidate} : s.stage = .checking candidate → pool.contains candidate.1 = false →
      Steps s pool .check { s with
        stage := .connecting candidate
        followed := s.followed ++ [candidate]
        dials := s.dials ++ [⟨candidate, s.response, s.followed, s.oldCandidates, pool⟩] }
  | connects {candidate} : s.stage = .connecting candidate →
      Steps s pool (.connect .connected) { s with stage := .handshaking candidate }
  | fails {candidate} : s.stage = .connecting candidate →
      Steps s pool (.connect .unreachable) { s with stage := .looping }
  | connectPanics {candidate} : s.stage = .connecting candidate →
      Steps s pool (.connect .panics) { s with stage := .panicked }
  | discovers {candidate} : s.stage = .handshaking candidate →
      Steps s pool (.handshake (.ok candidate.1)) { s with
        missingPeers := s.missingPeers - 1
        stage := .looping
        discovered := s.discovered ++ [candidate.1] }
  | givesUp {candidate e} : s.stage = .handshaking candidate →
      Steps s pool (.handshake (.error e)) { s with stage := .returned }
  | asks {provider requestId} : s.stage = .asking provider →
      Steps s pool (.ask requestId true) { s with
        stage := .awaiting provider requestId
        asked := s.asked ++ [provider] }
  | askPanics {provider requestId} : s.stage = .asking provider →
      Steps s pool (.ask requestId false) { s with
        stage := .panicked
        asked := s.asked ++ [provider] }
  | receives {provider resp} : s.stage = .awaiting provider resp.requestId →
      Steps s pool (.receive provider resp) { s with
        candidates := resp.peers
        stage := .looping
        suggested := s.suggested ++ resp.peers
        response := resp.peers
        followed := [] }
  | ignores {provider requestId n resp} : s.stage = .awaiting provider requestId →
      ¬ (resp.requestId = requestId ∧ n = provider) → Steps s pool (.receive n resp) s

variable {overflowChecks : Bool} {s s' : Discovery} {pool : ConnectionPool}

theorem steps_turn (hstage : s.stage = .looping) : Steps overflowChecks s pool .turn s.turn := by
  rw [turn]
  split
  · rename_i hzero
    exact .fills hstage hzero
  · rename_i hpos
    split
    · rename_i candidate hlast
      obtain ⟨candidates, heq⟩ := List.getLast?_eq_some_iff.mp hlast
      have hdrop : s.candidates.dropLast = candidates := by rw [heq, List.dropLast_concat]
      rw [hdrop]
      split
      · rename_i hold
        exact .repeats hstage hpos heq hold
      · rename_i hnew
        exact .tries hstage hpos heq hnew
    · rename_i hnone
      have hnil : s.candidates = [] := List.getLast?_eq_none_iff.mp hnone
      split
      · rename_i provider hlast
        obtain ⟨providers, heq⟩ := List.getLast?_eq_some_iff.mp hlast
        have hdrop : s.providers.dropLast = providers := by rw [heq, List.dropLast_concat]
        rw [hdrop]
        exact .turnsTo hstage hpos hnil heq
      · rename_i hnone'
        exact .exhausts hstage hpos hnil (List.getLast?_eq_none_iff.mp hnone')

theorem steps_check {candidate : PeerID × String} (hstage : s.stage = .checking candidate) :
    Steps overflowChecks s pool .check (s.check pool candidate) := by
  rw [check]
  split
  · rename_i hcontains
    exact .skips hstage hcontains
  · rename_i hcontains
    exact .dials hstage (by simpa using hcontains)

theorem steps_receive {provider n : PeerID} {requestId : UInt32} {resp : DiscoverPeersRespPacket}
    (hstage : s.stage = .awaiting provider requestId) :
    Steps overflowChecks s pool (.receive n resp) (s.receive provider requestId n resp) := by
  rw [receive]
  split
  · rename_i heq
    obtain ⟨rfl, rfl⟩ := heq
    exact .receives hstage
  · rename_i hne
    exact .ignores hstage hne

theorem step_cases {l : DiscoveryLabel} (h : s.step overflowChecks (pool, l) = some s') :
    Steps overflowChecks s pool l s' := by
  cases l with
  | list =>
    rw [step] at h
    split at h
    · rename_i hstage
      cases h
      exact .list hstage
    · cases h
  | count =>
    rw [step] at h
    split at h
    · rename_i hstage
      split at h
      · rename_i n hn
        cases h
        exact .count hstage hn
      · rename_i hnone
        cases h
        exact .overflows hstage hnone
    · cases h
  | turn =>
    rw [step] at h
    split at h
    · rename_i hstage
      cases h
      exact steps_turn hstage
    · cases h
  | check =>
    rw [step] at h
    split at h
    · rename_i candidate hstage
      cases h
      exact steps_check hstage
    · cases h
  | connect outcome =>
    rw [step] at h
    split at h
    · rename_i candidate hstage
      cases outcome with
      | connected => cases h; exact .connects hstage
      | unreachable => cases h; exact .fails hstage
      | panics => cases h; exact .connectPanics hstage
    · cases h
  | handshake result =>
    rw [step] at h
    split at h
    · rename_i candidate hstage
      cases result with
      | ok n =>
        dsimp only at h
        split at h
        · rename_i heq
          subst heq
          cases h
          exact .discovers hstage
        · cases h
      | error e => cases h; exact .givesUp hstage
    · cases h
  | ask requestId writes =>
    rw [step] at h
    split at h
    · rename_i provider hstage
      cases writes with
      | true => cases h; exact .asks hstage
      | false => cases h; exact .askPanics hstage
    · cases h
  | receive n resp =>
    rw [step] at h
    split at h
    · rename_i provider requestId hstage
      cases h
      exact steps_receive hstage
    · cases h

theorem step_takes {candidate : PeerID × String} {candidates : List (PeerID × String)}
    (hstage : s.stage = .looping) (hpos : s.missingPeers ≠ 0)
    (hlast : s.candidates = candidates ++ [candidate]) (hnew : candidate ∉ s.oldCandidates) :
    step overflowChecks s (pool, .turn) = some
      { s with
        candidates
        oldCandidates := candidate :: s.oldCandidates
        stage := .checking candidate } := by
  have hturn : s.turn =
      { s with
        candidates
        oldCandidates := candidate :: s.oldCandidates
        stage := .checking candidate } := by
    rw [turn, if_neg hpos, hlast, List.getLast?_concat, List.dropLast_concat]
    exact if_neg hnew
  rw [step, hstage, hturn]

theorem exec_dial {candidate : PeerID × String} {candidates : List (PeerID × String)}
    (hstage : s.stage = .looping) (hpos : s.missingPeers ≠ 0)
    (hlast : s.candidates = candidates ++ [candidate]) (hnew : candidate ∉ s.oldCandidates)
    (hcontains : pool.contains candidate.1 = false) :
    exec (step overflowChecks) s [(pool, .turn), (pool, .check)] = some
      { s with
        candidates
        oldCandidates := candidate :: s.oldCandidates
        stage := .connecting candidate
        followed := s.followed ++ [candidate]
        dials := s.dials ++
          [⟨candidate, s.response, s.followed, candidate :: s.oldCandidates, pool⟩] } := by
  have hcheck : ¬ pool.contains candidate.1 = true := by
    rw [hcontains]
    exact Bool.false_ne_true
  rw [exec_cons, step_takes hstage hpos hlast hnew, Option.bind_some, exec_singleton]
  exact congrArg some (if_neg hcheck)

/-- A condition along a dial is one on the candidate in hand. -/
theorem meets_dial {ok : Discovery → ConnectionPool × DiscoveryLabel → Prop}
    {candidate : PeerID × String} {candidates : List (PeerID × String)}
    (hstage : s.stage = .looping) (hpos : s.missingPeers ≠ 0)
    (hlast : s.candidates = candidates ++ [candidate]) (hnew : candidate ∉ s.oldCandidates)
    (hturn : ok s (pool, .turn))
    (hcheck : ok
      { s with
        candidates
        oldCandidates := candidate :: s.oldCandidates
        stage := .checking candidate } (pool, .check)) :
    Meets (step overflowChecks) ok s [(pool, .turn), (pool, .check)] := by
  rw [meets_cons (step_takes hstage hpos hlast hnew)]
  exact ⟨hturn, hcheck, fun _ _ => trivial⟩

theorem exec_discover (pool : ConnectionPool) {candidate : PeerID × String}
    (hstage : s.stage = .connecting candidate) :
    exec (step overflowChecks) s [(pool, .connect .connected),
        (pool, .handshake (.ok candidate.1))] = some
      { s with
        missingPeers := s.missingPeers - 1
        stage := .looping
        discovered := s.discovered ++ [candidate.1] } := by
  rw [exec_cons, step, hstage, Option.bind_some, exec_singleton]
  exact if_pos rfl

theorem exec_answer {self provider : PeerID} {bucketLevel bucketId : ℕ}
    (hstart : start self bucketLevel bucketId = some s)
    (hlist : pool.peersOnBucketAndUnder bucketLevel = [provider])
    (hcount : pool.peersOnBucket bucketLevel bucketId = []) (resp : DiscoverPeersRespPacket) :
    exec (step overflowChecks) s [(pool, .list), (pool, .count), (pool, .turn),
        (pool, .ask resp.requestId true), (pool, .receive provider resp)] = some
      { s with
        providers := []
        missingPeers := kademliaBucketSize
        stage := .looping
        listed := [provider]
        missing := some kademliaBucketSize
        asked := [provider]
        candidates := resp.peers
        oldCandidates := []
        suggested := resp.peers
        response := resp.peers
        followed := []
        dials := []
        skipped := []
        discovered := [] } := by
  rw [start] at hstart
  split at hstart
  · obtain ⟨target, -, rfl⟩ := Option.map_eq_some_iff.mp hstart
    simp [exec, step, turn, receive, hlist, hcount, missingPeersOf, kademliaBucketSize]
  · cases hstart

end Discovery

end Tewta
