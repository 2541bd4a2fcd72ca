import Tewta.Node.Hangup.Announced
import Tewta.Node.DiscoverPeers.Tried
import Tewta.Node.Refresh

/-!
# Refreshes after disconnections

A node has a task that waits for `on_disconnect` and refreshes its buckets whenever a peer is
gone, beside the refreshes of its timer and of commands.  Peers are removed while a refresh is
under way, and an event may find the task busy; it is queued then.

The calls of `disconnect` and of `refresh_buckets` are those of their modules, over one pool.
When all is quiet again, the last refresh of the task has begun after the last removal, and
has started a discovery for each bucket that a refresh of the present pool is about.
-/

namespace Tewta

open PeerID Transition

/-- Where the task stands: before `listen`, at `recv`, or in its call of `refresh_buckets`. -/
inductive UpkeepStage
  | starting
  | receiving
  | refreshing (c : ℕ)

/-- A node with the task that refreshes its buckets.  `since` is the number of events that were
fired before the task has called `listen`, and `taken` the number of those that it has received. -/
structure UpkeepState where
  hangup : HangupState
  refresh : RefreshState
  stage : UpkeepStage
  since : ℕ
  taken : ℕ

inductive UpkeepLabel
  /-- peers are inserted and removed -/
  | hangup (l : HangupLabel)
  /-- a call of `refresh_buckets` or a discovery goes on -/
  | refresh (l : RefreshLabel)
  /-- `listen` pushes the listener of the task, with the lock of the listeners -/
  | listen
  /-- `recv` returns, and `refresh_buckets` is called -/
  | receive (c : ℕ)
  /-- the refresh is over -/
  | finish

/-- Is a label one of the functions, or does it stand for what the calls of `disconnect` do? -/
def RefreshLabel.isOwn : RefreshLabel → Bool
  | .insert _ _ => false
  | .remove _ => false
  | _ => true

namespace UpkeepState

def init (ourPeerId : PeerID) : UpkeepState where
  hangup := .init ourPeerId
  refresh := .init (.new ourPeerId)
  stage := .starting
  since := 0
  taken := 0

/-- `recv` returns the next event, and the task calls `refresh_buckets`. -/
def receive (overflowChecks : Bool) (s : UpkeepState) (c : ℕ) : Option UpkeepState :=
  if s.since + s.taken < s.hangup.fired.length then
    (s.refresh.step overflowChecks (.call c)).map fun refresh =>
      { s with refresh, stage := .refreshing c, taken := s.taken + 1 }
  else none

def step (overflowChecks : Bool) (codec : Codec Bytes) (s : UpkeepState) :
    UpkeepLabel → Option UpkeepState
  | .hangup l =>
    (s.hangup.step codec l).map fun hangup =>
      { s with hangup, refresh := { s.refresh with pool := hangup.pool } }
  | .refresh l =>
    if l.isOwn then (s.refresh.step overflowChecks l).map fun refresh => { s with refresh }
    else none
  | .listen =>
    match s.stage, s.hangup.lock with
    | .starting, .listen => some { s with stage := .receiving, since := s.hangup.fired.length }
    | _, _ => none
  | .receive c =>
    match s.stage with
    | .receiving => s.receive overflowChecks c
    | _ => none
  | .finish =>
    match s.stage with
    | .refreshing c =>
      match s.refresh.calls c with
      | some ⟨[], _, _⟩ => some { s with stage := .receiving }
      | _ => none
    | _ => none

variable {overflowChecks : Bool} {codec : Codec Bytes} {s s' : UpkeepState}

/-- What one step can be. -/
inductive Steps (overflowChecks : Bool) (codec : Codec Bytes) (s : UpkeepState) :
    UpkeepLabel → UpkeepState → Prop
  | hangup {l hangup} : s.hangup.step codec l = some hangup → Steps overflowChecks codec s
      (.hangup l) { s with hangup, refresh := { s.refresh with pool := hangup.pool } }
  | refresh {l refresh} : l.isOwn = true → s.refresh.step overflowChecks l = some refresh →
      Steps overflowChecks codec s (.refresh l) { s with refresh }
  | listen : s.stage = .starting → Steps overflowChecks codec s .listen
      { s with stage := .receiving, since := s.hangup.fired.length }
  | receive {c refresh} : s.stage = .receiving → s.since + s.taken < s.hangup.fired.length →
      s.refresh.step overflowChecks (.call c) = some refresh → Steps overflowChecks codec s
        (.receive c) { s with refresh, stage := .refreshing c, taken := s.taken + 1 }
  | finish {c found spawned} : s.stage = .refreshing c →
      s.refresh.calls c = some ⟨[], found, spawned⟩ →
      Steps overflowChecks codec s .finish { s with stage := .receiving }

theorem step_cases {l : UpkeepLabel} (h : s.step overflowChecks codec l = some s') :
    Steps overflowChecks codec s l s' := by
  cases l with
  | hangup l =>
    obtain ⟨hangup, hstep, rfl⟩ := Option.map_eq_some_iff.mp h
    exact .hangup hstep
  | refresh l =>
    rw [step] at h
    split at h
    · rename_i hown
      obtain ⟨refresh, hstep, rfl⟩ := Option.map_eq_some_iff.mp h
      exact .refresh hown hstep
    · cases h
  | listen =>
    rw [step] at h
    split at h
    · rename_i hstage _
      cases h
      exact .listen hstage
    · cases h
  | receive c =>
    rw [step] at h
    split at h
    · rename_i hstage
      rw [receive] at h
      split at h
      · rename_i hlt
        obtain ⟨refresh, hstep, rfl⟩ := Option.map_eq_some_iff.mp h
        exact .receive hstage hlt hstep
      · cases h
    · cases h
  | finish =>
    rw [step] at h
    split at h
    · rename_i c hstage
      split at h
      · rename_i found spawned hcall
        cases h
        exact .finish hstage hcall
      · cases h
    · cases h

end UpkeepState

/-! ### What a step leaves -/

namespace HangupState

variable {codec : Codec Bytes} {s s' : HangupState} {l : HangupLabel}

theorem prefix_of_step (h : s.step codec l = some s') :
    s.removed <+: s'.removed ∧ s.fired <+: s'.fired := by
  cases step_cases h with
  | removes _ _ _ => exact ⟨List.prefix_append _ _, List.prefix_rfl⟩
  | fires _ _ => exact ⟨List.prefix_rfl, List.prefix_append _ _⟩
  | _ => exact ⟨List.prefix_rfl, List.prefix_rfl⟩

theorem pool_of_step (hinsert : ∀ n addr, l ≠ .insert n addr)
    (hremoved : s'.removed.length = s.removed.length) (h : s.step codec l = some s') :
    s'.pool = s.pool := by
  cases step_cases h with
  | @insert n addr _ => exact absurd rfl (hinsert n addr)
  | removes _ _ _ => simp at hremoved
  | _ => rfl

/-- When all calls are over and none was lost, as much was announced as was removed. -/
theorem length_fired (inv : Ledger s) (hquiet : s.Quiet) (hlost : s.lost = []) :
    s.fired.length = s.removed.length := by
  refine ((List.perm_ext_iff_of_nodup inv.fired_nodup inv.removed_nodup).mpr fun e => ?_).length_eq
  refine ⟨inv.fired e, fun he => ?_⟩
  rcases inv.accounted e he with hfired | hmem | ⟨c, call, hcall, hpending, -⟩
  · exact hfired
  · rw [hlost] at hmem
    cases hmem
  · have hrunning := HangupStage.isRunning_of_isPending hpending
    cases hrunning.symm.trans (hquiet c call hcall)

/-- No more was announced than was removed. -/
theorem length_fired_le (inv : Ledger s) : s.fired.length ≤ s.removed.length :=
  (List.subperm_of_subset inv.fired_nodup inv.fired).length_le

end HangupState

namespace RefreshState

variable {overflowChecks : Bool} {s s' : RefreshState} {l : RefreshLabel}

theorem pool_of_step (hown : l.isOwn = true) (h : s.step overflowChecks l = some s') :
    s'.pool = s.pool := by
  cases step_cases h with
  | insert _ => cases hown
  | remove => cases hown
  | _ => rfl

theorem done_of_step {c : ℕ} {spawned : List (ℕ × ℕ)} {found : Option ℕ}
    (hc : s.calls c = some ⟨[], found, spawned⟩) (h : s.step overflowChecks l = some s') :
    s'.calls c = some ⟨[], found, spawned⟩ := by
  have hother : ∀ {c' : ℕ} {call call' : Option RefreshCall}, s.calls c' = call →
      call ≠ some ⟨[], found, spawned⟩ →
        Function.update s.calls c' call' c = some ⟨[], found, spawned⟩ := by
    intro c' call call' hcall hne
    rw [Function.update_of_ne, hc]
    rintro rfl
    exact hne (hcall.symm.trans hc)
  cases step_cases h with
  | call hnone => exact hother hnone (by rintro ⟨⟩)
  | look hcall => exact hother hcall (by rintro ⟨⟩)
  | spawns hcall _ _ _ => exact hother hcall (by rintro ⟨⟩)
  | passes hcall _ => exact hother hcall (by rintro ⟨⟩)
  | _ => exact hc

/-- Calls and tasks have numbers below a bound, and a call has buckets to go through and a task
for each bucket that it has spawned one for. -/
structure Sound (s : RefreshState) : Prop where
  fresh : ∃ bound, ∀ k, bound ≤ k → s.calls k = none ∧ s.tasks k = none
  buckets : ∀ c call, s.calls c = some call →
    (∀ b ∈ call.remaining, b ∈ bucketsBelow 128) ∧ (call.remaining = [] → call.found = none)
  spawned : ∀ c call, s.calls c = some call → ∀ b ∈ call.spawned, ∃ t d, s.tasks t = some d ∧
    (d.bucketLevel, d.bucketId) = b

namespace Sound

theorem init (pool : ConnectionPool) : Sound (.init pool) :=
  ⟨⟨0, fun _ _ => ⟨rfl, rfl⟩⟩, by rintro _ _ ⟨⟩, by rintro _ _ ⟨⟩⟩

theorem setCall (inv : Sound s) (c : ℕ) {call : RefreshCall}
    (hremaining : ∀ b ∈ call.remaining, b ∈ bucketsBelow 128)
    (hfound : call.remaining = [] → call.found = none)
    (hspawned : ∀ b ∈ call.spawned, ∃ t d, s.tasks t = some d ∧ (d.bucketLevel, d.bucketId) = b) :
    Sound { s with calls := Function.update s.calls c (some call) } := by
  obtain ⟨bound, hbound⟩ := inv.fresh
  refine ⟨⟨max bound (c + 1), fun k hk => ⟨?_, ?_⟩⟩, fun c' call' hc' => ?_,
    fun c' call' hc' => ?_⟩
  · exact (Function.update_of_ne (by omega) _ _).trans (hbound k (by omega)).1
  · exact (hbound k (by omega)).2
  · rcases update_eq_cases hc' with ⟨-, heq⟩ | ⟨-, hc'⟩
    · cases heq
      exact ⟨hremaining, hfound⟩
    · exact inv.buckets c' call' hc'
  · rcases update_eq_cases hc' with ⟨-, heq⟩ | ⟨-, hc'⟩
    · cases heq
      exact hspawned
    · exact inv.spawned c' call' hc'

theorem setTask (inv : Sound s) (t : ℕ) {d : Discovery} (counts : List ℕ)
    (haim : ∀ d₀, s.tasks t = some d₀ →
      (d.bucketLevel, d.bucketId) = (d₀.bucketLevel, d₀.bucketId)) :
    Sound { s with tasks := Function.update s.tasks t (some d), counts } := by
  obtain ⟨bound, hbound⟩ := inv.fresh
  refine ⟨⟨max bound (t + 1), fun k hk => ⟨?_, ?_⟩⟩, inv.buckets, fun c call hc b hb => ?_⟩
  · exact (hbound k (by omega)).1
  · exact (Function.update_of_ne (by omega) _ _).trans (hbound k (by omega)).2
  · obtain ⟨t', d', hd', hbucket⟩ := inv.spawned c call hc b hb
    by_cases ht : t' = t
    · subst ht
      exact ⟨t', d, Function.update_self _ _ _, (haim d' hd').trans hbucket⟩
    · exact ⟨t', d', (Function.update_of_ne ht _ _).trans hd', hbucket⟩

theorem step (inv : Sound s) (h : s.step overflowChecks l = some s') : Sound s' := by
  cases step_cases h with
  | insert _ => exact ⟨inv.fresh, inv.buckets, inv.spawned⟩
  | remove => exact ⟨inv.fresh, inv.buckets, inv.spawned⟩
  | call _ =>
    exact inv.setCall _ (fun _ hb => hb) (fun _ => rfl) fun _ hb => absurd hb List.not_mem_nil
  | look hcall =>
    have hspawned := inv.spawned _ _ hcall
    exact inv.setCall _ (inv.buckets _ _ hcall).1 (by rintro ⟨⟩) hspawned
  | @spawns c t b buckets found spawned d hcall hlt hnone hd =>
    have hnew : ∀ d₀, s.tasks t = some d₀ →
        (d.bucketLevel, d.bucketId) = (d₀.bucketLevel, d₀.bucketId) :=
      fun d₀ hd₀ => by cases hnone.symm.trans hd₀
    have htask := inv.setTask t s.counts hnew
    refine htask.setCall c (fun b' hb' => ?_) (fun _ => rfl) fun b' hb' => ?_
    · refine (inv.buckets c _ hcall).1 b' (List.mem_cons_of_mem _ ?_)
      split at hb'
      · cases hb'
      · exact hb'
    · rcases List.mem_append.mp hb' with hb' | hb'
      · exact htask.spawned c _ hcall b' hb'
      · rw [List.mem_singleton.mp hb']
        obtain ⟨hlevel, hid⟩ := Discovery.bucket_of_start hd
        exact ⟨t, d, Function.update_self _ _ _, by rw [hlevel, hid]⟩
  | passes hcall _ =>
    have hspawned := inv.spawned _ _ hcall
    exact inv.setCall _ (fun b hb => (inv.buckets _ _ hcall).1 b (List.mem_cons_of_mem _ hb))
      (fun _ => rfl) hspawned
  | task hd hstep =>
    obtain ⟨hlevel, hid, -, -⟩ := Discovery.aim_of_step hstep
    refine inv.setTask _ _ fun d₀ hd₀ => ?_
    cases hd.symm.trans hd₀
    rw [hlevel, hid]

end Sound

/-! ### A call goes on -/

/-- The labels by which a call of `refresh_buckets` goes on. -/
def OfCall (c : ℕ) (l : RefreshLabel) : Prop := l = .look c ∨ ∃ t, l = .turn c t

theorem exists_turn (overflowChecks : Bool) (inv : Sound s) {c found : ℕ} {b : ℕ × ℕ}
    {buckets spawned : List (ℕ × ℕ)} (hc : s.calls c = some ⟨b :: buckets, some found, spawned⟩) :
    ∃ t s' remaining spawned', s.step overflowChecks (.turn c t) = some s' ∧
      s'.calls c = some ⟨remaining, none, spawned'⟩ ∧ remaining.length ≤ buckets.length := by
  obtain ⟨bound, hbound⟩ := inv.fresh
  have hstep : ∀ t, s.step overflowChecks (.turn c t) = s.turn c t b buckets found spawned := by
    intro t
    rw [RefreshState.step, hc]
  have hlen : (if found = 0 then [] else buckets).length ≤ buckets.length := by
    split
    · exact Nat.zero_le _
    · exact le_rfl
  refine ⟨bound, ?_⟩
  rw [hstep, turn]
  split
  · obtain ⟨hl, hk⟩ := mem_bucketsBelow.mp ((inv.buckets c _ hc).1 b List.mem_cons_self)
    have hstart : ∃ d, Discovery.start s.pool.ourPeerId b.1 b.2 = some d := by
      rw [Discovery.start, dif_pos ⟨hl, hk⟩, generateInBucket_eq _ hl hk]
      exact ⟨_, rfl⟩
    obtain ⟨d, hd⟩ := hstart
    rw [(hbound bound le_rfl).2, hd]
    exact ⟨_, _, _, rfl, Function.update_self _ _ _, hlen⟩
  · exact ⟨_, _, _, rfl, Function.update_self _ _ _, hlen⟩

/-- **A call comes to its end** by itself. -/
theorem exists_done (overflowChecks : Bool) {c : ℕ} {call : RefreshCall} (inv : Sound s)
    (hc : s.calls c = some call) : ∃ ls s' spawned, (∀ l ∈ ls, OfCall c l) ∧
      exec (RefreshState.step overflowChecks) s ls = some s' ∧
      s'.calls c = some ⟨[], none, spawned⟩ := by
  obtain ⟨remaining, found, spawned⟩ := call
  induction hn : remaining.length using Nat.strong_induction_on
    generalizing s remaining found spawned with
  | _ n ih =>
    cases remaining with
    | nil =>
      have hfound : found = none := (inv.buckets c _ hc).2 rfl
      subst hfound
      exact ⟨[], s, spawned, by simp, rfl, hc⟩
    | cons b buckets =>
      -- a turn is a look, if there was none yet, and the rest
      obtain ⟨ls, u, n', hls, hlook, hu⟩ : ∃ ls u n', (∀ l ∈ ls, OfCall c l) ∧
          exec (RefreshState.step overflowChecks) s ls = some u ∧
          u.calls c = some ⟨b :: buckets, some n', spawned⟩ := by
        cases found with
        | some n' => exact ⟨[], s, n', by simp, rfl, hc⟩
        | none =>
          let u : RefreshState := { s with
            calls := Function.update s.calls c (some ⟨b :: buckets, s.size b, spawned⟩) }
          have hlook : s.step overflowChecks (.look c) = some u := by rw [RefreshState.step, hc]
          exact ⟨[.look c], u, s.size b, by simp [OfCall], (exec_singleton _ _).trans hlook,
            Function.update_self _ _ _⟩
      have hinv : Sound u := invariant_of_exec (fun _ _ _ inv h => Sound.step inv h) hlook inv
      obtain ⟨t, v, remaining, spawned', hturn, hv, hlen⟩ := exists_turn overflowChecks hinv hu
      obtain ⟨ms, w, spawned'', hms, hrest, hw⟩ :=
        ih _ (by rw [← hn]; exact Nat.lt_succ_of_le hlen) (hinv.step hturn) remaining none spawned'
          hv rfl
      refine ⟨ls ++ .turn c t :: ms, w, spawned'', fun l hl => ?_, ?_, hw⟩
      · rcases List.mem_append.mp hl with hl | hl
        · exact hls l hl
        · rcases List.mem_cons.mp hl with rfl | hl
          · exact Or.inr ⟨t, rfl⟩
          · exact hms l hl
      · rw [exec_append_of hlook]
        exact exec_cons_eq_some.mpr ⟨v, hturn, hrest⟩

end RefreshState

namespace UpkeepState

open HangupState (pingTimeout)
open RefreshState (Sound CallInv)

variable {overflowChecks : Bool} {codec : Codec Bytes} {s s' : UpkeepState}

/-! ### The task -/

/-- The two halves have one pool, the task has received what was fired, and the call that it
is in exists. -/
structure UpkeepInv (s : UpkeepState) : Prop where
  ledger : Ledger s.hangup
  sound : Sound s.refresh
  pool : s.refresh.pool = s.hangup.pool
  taken : s.since + s.taken ≤ s.hangup.fired.length
  starting : s.stage = .starting → s.taken = 0
  call : ∀ c, s.stage = .refreshing c → ∃ call, s.refresh.calls c = some call

theorem exists_call_of_step {s s' : RefreshState} {l : RefreshLabel} {c : ℕ}
    (hc : ∃ call, s.calls c = some call) (h : s.step overflowChecks l = some s') :
    ∃ call, s'.calls c = some call := by
  have hupdate : ∀ (c' : ℕ) (call' : RefreshCall),
      ∃ call, Function.update s.calls c' (some call') c = some call := by
    intro c' call'
    by_cases hcc : c = c'
    · exact ⟨call', by rw [hcc, Function.update_self]⟩
    · rwa [Function.update_of_ne hcc]
  cases RefreshState.step_cases h with
  | insert _ => exact hc
  | remove => exact hc
  | task _ _ => exact hc
  | _ => exact hupdate _ _

theorem calls_call {s s' : RefreshState} {c : ℕ} (h : s.step overflowChecks (.call c) = some s') :
    s.calls c = none ∧ s'.calls c = some ⟨bucketsBelow 128, none, []⟩ ∧ s'.pool = s.pool := by
  cases RefreshState.step_cases h with
  | call hnone => exact ⟨hnone, Function.update_self _ _ _, rfl⟩

namespace UpkeepInv

theorem init (ourPeerId : PeerID) : UpkeepInv (.init ourPeerId) where
  ledger := .init ourPeerId
  sound := .init _
  pool := rfl
  taken := Nat.zero_le _
  starting _ := rfl
  call := by rintro _ ⟨⟩

theorem step (inv : UpkeepInv s) {l : UpkeepLabel}
    (h : s.step overflowChecks codec l = some s') : UpkeepInv s' := by
  cases step_cases h with
  | hangup hstep =>
    exact ⟨inv.ledger.step hstep, ⟨inv.sound.fresh, inv.sound.buckets, inv.sound.spawned⟩, rfl,
      inv.taken.trans (HangupState.prefix_of_step hstep).2.length_le, inv.starting, inv.call⟩
  | refresh hown hstep =>
    exact ⟨inv.ledger, inv.sound.step hstep, (RefreshState.pool_of_step hown hstep).trans inv.pool,
      inv.taken, inv.starting, fun c hc => exists_call_of_step (inv.call c hc) hstep⟩
  | listen hstage =>
    refine ⟨inv.ledger, inv.sound, inv.pool, ?_, by rintro ⟨⟩, by rintro _ ⟨⟩⟩
    rw [inv.starting hstage]
    exact le_rfl
  | @receive c refresh _ hlt hstep =>
    obtain ⟨-, hcall, hpool⟩ := calls_call hstep
    refine ⟨inv.ledger, inv.sound.step hstep, hpool.trans inv.pool, hlt, by rintro ⟨⟩, ?_⟩
    rintro c' ⟨⟩
    exact ⟨_, hcall⟩
  | finish _ _ =>
    exact ⟨inv.ledger, inv.sound, inv.pool, inv.taken, by rintro ⟨⟩, by rintro _ ⟨⟩⟩

end UpkeepInv

/-- The task waits, and no event is queued. -/
def Idle (s : UpkeepState) : Prop :=
  s.stage = .receiving ∧ s.since + s.taken = s.hangup.fired.length

/-- The labels of the task. -/
def OfTask : UpkeepLabel → Prop
  | .refresh l => ∃ c, RefreshState.OfCall c l
  | .receive _ => True
  | .finish => True
  | _ => False

theorem exec_refresh {c : ℕ} {ls : List RefreshLabel} (hls : ∀ l ∈ ls, RefreshState.OfCall c l)
    {refresh : RefreshState}
    (h : exec (RefreshState.step overflowChecks) s.refresh ls = some refresh) :
    exec (step overflowChecks codec) s (ls.map .refresh) = some { s with refresh } := by
  induction ls generalizing s with
  | nil =>
    cases h
    rfl
  | cons l ls ih =>
    obtain ⟨hl, hls⟩ := List.forall_mem_cons.mp hls
    obtain ⟨u, hu, hrest⟩ := exec_cons_eq_some.mp h
    have hown : l.isOwn = true := by
      rcases hl with rfl | ⟨t, rfl⟩
      · rfl
      · rfl
    refine exec_cons_eq_some.mpr
      ⟨{ s with refresh := u }, ?_, ih hls (s := { s with refresh := u }) hrest⟩
    rw [step, if_pos hown, hu]
    rfl

theorem exists_finish (overflowChecks : Bool) (codec : Codec Bytes) (inv : UpkeepInv s) {c : ℕ}
    (hstage : s.stage = .refreshing c) : ∃ ls s', (∀ l ∈ ls, OfTask l) ∧
      exec (step overflowChecks codec) s ls = some s' ∧ s'.stage = .receiving ∧
      s'.hangup = s.hangup ∧ s'.since = s.since ∧ s'.taken = s.taken := by
  obtain ⟨call, hcall⟩ := inv.call c hstage
  obtain ⟨ls, refresh, spawned, hls, hrun, hdone⟩ :=
    RefreshState.exists_done overflowChecks inv.sound hcall
  refine ⟨ls.map .refresh ++ [.finish], { s with refresh, stage := .receiving }, fun l hl => ?_,
    ?_, rfl, rfl, rfl, rfl⟩
  · rcases List.mem_append.mp hl with hl | hl
    · obtain ⟨l', hl', rfl⟩ := List.mem_map.mp hl
      exact ⟨c, hls l' hl'⟩
    · rw [List.mem_singleton.mp hl]
      trivial
  · rw [exec_append_of (exec_refresh hls hrun), exec_singleton, step]
    simp only [hstage, hdone]

/-- **The task catches up** by itself. -/
theorem exists_idle (overflowChecks : Bool) (codec : Codec Bytes) (inv : UpkeepInv s)
    (hstage : s.stage ≠ .starting) : ∃ ls s', (∀ l ∈ ls, OfTask l) ∧
      exec (step overflowChecks codec) s ls = some s' ∧ s'.Idle ∧ s'.hangup = s.hangup := by
  induction hn : s.hangup.fired.length - (s.since + s.taken) using Nat.strong_induction_on
    generalizing s with
  | _ n ih =>
    -- first to the end of the refresh that is under way
    obtain ⟨ls, u, hls, hrun, hu, hhangup, hsince, htaken⟩ : ∃ ls u, (∀ l ∈ ls, OfTask l) ∧
        exec (step overflowChecks codec) s ls = some u ∧ u.stage = .receiving ∧
        u.hangup = s.hangup ∧ u.since = s.since ∧ u.taken = s.taken := by
      cases h : s.stage with
      | starting => exact absurd h hstage
      | receiving => exact ⟨[], s, by simp, rfl, h, rfl, rfl, rfl⟩
      | refreshing c => exact exists_finish overflowChecks codec inv h
    have hinv : UpkeepInv u := invariant_of_exec (fun _ _ _ inv h => UpkeepInv.step inv h) hrun inv
    by_cases hidle : u.since + u.taken = u.hangup.fired.length
    · exact ⟨ls, u, hls, hrun, ⟨hu, hidle⟩, hhangup⟩
    · have hlt : u.since + u.taken < u.hangup.fired.length := lt_of_le_of_ne hinv.taken hidle
      obtain ⟨bound, hbound⟩ := hinv.sound.fresh
      let refresh : RefreshState := { u.refresh with
        calls := Function.update u.refresh.calls bound (some ⟨bucketsBelow 128, none, []⟩) }
      let v : UpkeepState := { u with
        refresh, stage := .refreshing bound, taken := u.taken + 1 }
      have hreceive : u.step overflowChecks codec (.receive bound) = some v := by
        have hcall : u.refresh.step overflowChecks (.call bound) = some refresh := by
          rw [RefreshState.step, (hbound bound le_rfl).1]
        simp only [step, hu, receive, if_pos hlt, hcall]
        rfl
      obtain ⟨ms, w, hms, hrest, hidle', hhangup'⟩ := ih
        (v.hangup.fired.length - (v.since + v.taken))
        (by
          show u.hangup.fired.length - (u.since + (u.taken + 1)) < n
          rw [← hn, ← hhangup, ← hsince, ← htaken]
          omega) (hinv.step hreceive) (by rintro ⟨⟩) rfl
      refine ⟨ls ++ .receive bound :: ms, w, fun l hl => ?_, ?_, hidle', hhangup'.trans hhangup⟩
      · rcases List.mem_append.mp hl with hl | hl
        · exact hls l hl
        · rcases List.mem_cons.mp hl with rfl | hl
          · trivial
          · exact hms l hl
      · rw [exec_append_of hrun]
        exact exec_cons_eq_some.mpr ⟨v, hreceive, hrest⟩

/-! ### The last refresh -/

/-- A refresh of the task that has begun is under way, or is over. -/
def Begun (c : ℕ) (s : UpkeepState) : Prop :=
  s.stage = .refreshing c ∨ ∃ spawned, s.refresh.calls c = some ⟨[], none, spawned⟩

theorem Begun.step {c : ℕ} (inv : UpkeepInv s) (hc : Begun c s) {l : UpkeepLabel}
    (h : s.step overflowChecks codec l = some s') : Begun c s' := by
  cases step_cases h with
  | hangup _ => exact hc
  | refresh _ hstep =>
    refine hc.imp_right ?_
    rintro ⟨spawned, hdone⟩
    exact ⟨spawned, RefreshState.done_of_step hdone hstep⟩
  | listen hstage =>
    refine hc.imp_left fun hrefreshing => ?_
    cases hstage.symm.trans hrefreshing
  | receive hstage _ hstep =>
    rcases hc with hrefreshing | ⟨spawned, hdone⟩
    · cases hstage.symm.trans hrefreshing
    · exact Or.inr ⟨spawned, RefreshState.done_of_step hdone hstep⟩
  | @finish c' found spawned hstage hcall =>
    rcases hc with hrefreshing | hdone
    · cases hstage.symm.trans hrefreshing
      obtain rfl : found = none := (inv.sound.buckets _ _ hcall).2 rfl
      exact Or.inr ⟨spawned, hcall⟩
    · exact Or.inr hdone

/-- Nothing that was removed is forgotten, and the task listens from where it has begun. -/
theorem frame_of_step {l : UpkeepLabel} (h : s.step overflowChecks codec l = some s') :
    s.hangup.removed <+: s'.hangup.removed ∧
      (s.stage ≠ .starting → s'.stage ≠ .starting ∧ s'.since = s.since) := by
  cases step_cases h with
  | hangup hstep => exact ⟨(HangupState.prefix_of_step hstep).1, fun hstage => ⟨hstage, rfl⟩⟩
  | refresh _ _ => exact ⟨List.prefix_rfl, fun hstage => ⟨hstage, rfl⟩⟩
  | listen hstage => exact ⟨List.prefix_rfl, fun hstage' => absurd hstage hstage'⟩
  | receive _ _ _ => exact ⟨List.prefix_rfl, fun _ => ⟨by rintro ⟨⟩, rfl⟩⟩
  | finish _ _ => exact ⟨List.prefix_rfl, fun _ => ⟨by rintro ⟨⟩, rfl⟩⟩

theorem frame_of_exec {ls : List UpkeepLabel}
    (h : exec (step overflowChecks codec) s ls = some s') :
    s.hangup.removed <+: s'.hangup.removed ∧
      (s.stage ≠ .starting → s'.stage ≠ .starting ∧ s'.since = s.since) := by
  refine invariant_of_exec (I := fun t : UpkeepState => s.hangup.removed <+: t.hangup.removed ∧
    (s.stage ≠ .starting → t.stage ≠ .starting ∧ t.since = s.since)) (fun t l t' inv h => ?_) h
    ⟨List.prefix_rfl, fun hstage => ⟨hstage, rfl⟩⟩
  obtain ⟨hfront, hstage⟩ := frame_of_step h
  refine ⟨inv.1.trans hfront, fun hs => ?_⟩
  obtain ⟨ht, hsince⟩ := inv.2 hs
  exact ⟨(hstage ht).1, (hstage ht).2.trans hsince⟩

/-- As long as nothing is removed and nobody is inserted, the pool is as the call has found it. -/
structure Undisturbed (pool : ConnectionPool) (k c : ℕ) (s : UpkeepState) : Prop where
  le_length : k ≤ s.hangup.removed.length
  of_length_eq : s.hangup.removed.length = k →
    s.hangup.pool = pool ∧ ∀ call, s.refresh.calls c = some call → CallInv pool call

theorem Undisturbed.step {pool : ConnectionPool} {k c : ℕ} (inv : UpkeepInv s)
    (hs : Undisturbed pool k c s) {l : UpkeepLabel}
    (hinsert : ∀ n addr, l ≠ .hangup (.insert n addr))
    (h : s.step overflowChecks codec l = some s') : Undisturbed pool k c s' := by
  have hfront := (frame_of_step h).1.length_le
  refine ⟨hs.le_length.trans hfront, fun heq => ?_⟩
  have hlen : s.hangup.removed.length = k := le_antisymm (hfront.trans heq.le) hs.le_length
  obtain ⟨hpool, hcall⟩ := hs.of_length_eq hlen
  cases step_cases h with
  | @hangup l hangup hstep =>
    refine ⟨(HangupState.pool_of_step (fun n addr hl => ?_) (heq.trans hlen.symm) hstep).trans
      hpool, hcall⟩
    exact hinsert n addr (congrArg _ hl)
  | refresh _ hstep =>
    exact ⟨hpool, RefreshState.callInv_of_step (inv.pool.trans hpool) hcall hstep⟩
  | listen _ => exact ⟨hpool, hcall⟩
  | receive _ _ hstep =>
    exact ⟨hpool, RefreshState.callInv_of_step (inv.pool.trans hpool) hcall hstep⟩
  | finish _ _ => exact ⟨hpool, hcall⟩

/-- **The buckets are refreshed after disconnections.**  However removals, refreshes and
discoveries interleave, the task that listens for disconnections can catch up by itself; and
when it has, with no call of `disconnect` under way or lost, its last refresh has begun after
the last removal and is over.  If no peer was inserted since, it has started a discovery for
each bucket that a refresh of the present pool is about. -/
theorem buckets_refreshed_after_disconnections (overflowChecks : Bool) (codec : Codec Bytes)
    {ourPeerId : PeerID} {labels : List UpkeepLabel}
    (h : exec (step overflowChecks codec) (init ourPeerId) labels = some s)
    (hstage : s.stage ≠ .starting) :
    (∃ ls s', (∀ l ∈ ls, OfTask l) ∧ exec (step overflowChecks codec) s ls = some s' ∧ s'.Idle ∧
        s'.hangup = s.hangup) ∧
      (s.Idle → s.hangup.Quiet → s.hangup.lost = [] → s.taken ≠ 0 →
        ∃ pre c post t spawned, labels = pre ++ .receive c :: post ∧
          exec (step overflowChecks codec) (init ourPeerId) pre = some t ∧
          t.hangup.removed = s.hangup.removed ∧
          s.refresh.calls c = some ⟨[], none, spawned⟩ ∧
          (∀ b ∈ spawned, ∃ t d, s.refresh.tasks t = some d ∧
            (d.bucketLevel, d.bucketId) = b) ∧
          ((∀ n addr, .hangup (.insert n addr) ∉ post) →
            spawned = s.hangup.pool.refreshBuckets)) := by
  have hinv : ∀ {t : UpkeepState} {ls : List UpkeepLabel}, exec (step overflowChecks codec)
      (init ourPeerId) ls = some t → UpkeepInv t := fun hrun =>
    invariant_of_exec (fun _ _ _ inv h => UpkeepInv.step inv h) hrun (.init ourPeerId)
  have inv := hinv h
  refine ⟨exists_idle overflowChecks codec inv hstage, fun hidle hquiet hlost htaken => ?_⟩
  -- the step with which the last event was received
  obtain ⟨pre, l, post, t, v, rfl, hpre, htlt, hstep, hvle, hpost⟩ :=
    exists_step_of_exec (P := fun t : UpkeepState => s.taken ≤ t.taken) h
      (fun hle => htaken (Nat.le_zero.mp hle)) le_rfl
  have tinv := hinv hpre
  have vinv := tinv.step hstep
  cases step_cases hstep with
  | @receive c refresh hreceiving hlt hcall =>
    obtain ⟨hnone, hnew, hpool⟩ := calls_call hcall
    have hlast : s.taken = t.taken + 1 := by
      show s.taken = t.taken + 1
      have : s.taken ≤ t.taken + 1 := hvle
      omega
    obtain ⟨hfront, hlisten⟩ := frame_of_exec hpost
    have hsince : s.since = t.since := (hlisten (by rintro ⟨⟩)).2
    -- nothing was removed since
    have hremoved : t.hangup.removed = s.hangup.removed := by
      refine hfront.eq_of_length (le_antisymm hfront.length_le ?_)
      calc s.hangup.removed.length = s.hangup.fired.length :=
            (HangupState.length_fired inv.ledger hquiet hlost).symm
        _ = t.since + (t.taken + 1) := by rw [← hidle.2, hsince, hlast]
        _ ≤ t.hangup.fired.length := hlt
        _ ≤ t.hangup.removed.length := HangupState.length_fired_le tinv.ledger
    -- the refresh that has begun is over
    have hbegun := (invariant_of_exec (I := fun u => UpkeepInv u ∧ Begun c u)
      (fun _ _ _ inv h => ⟨inv.1.step h, inv.2.step inv.1 h⟩) hpost ⟨vinv, Or.inl rfl⟩).2
    obtain ⟨spawned, hdone⟩ : ∃ spawned, s.refresh.calls c = some ⟨[], none, spawned⟩ := by
      rcases hbegun with hrefreshing | hdone
      · cases hidle.1.symm.trans hrefreshing
      · exact hdone
    refine ⟨pre, c, post, t, spawned, rfl, hpre, hremoved, hdone, inv.sound.spawned c _ hdone,
      fun hinsert => ?_⟩
    have hfirst : Undisturbed t.hangup.pool t.hangup.removed.length c
        { t with refresh, stage := .refreshing c, taken := t.taken + 1 } := by
      refine ⟨le_rfl, fun _ => ⟨rfl, fun call hc => ?_⟩⟩
      cases hnew.symm.trans hc
      exact ⟨by rintro _ ⟨⟩, List.nil_append _⟩
    have hmeets : Meets (step overflowChecks codec)
        (fun _ l => ∀ n addr, l ≠ .hangup (.insert n addr))
        { t with refresh, stage := .refreshing c, taken := t.taken + 1 } post :=
      meets_of_forall fun l hl _ n addr heq => hinsert n addr (heq ▸ hl)
    have hundisturbed := (invariant_of_meets
      (I := fun u => UpkeepInv u ∧ Undisturbed t.hangup.pool t.hangup.removed.length c u)
      (fun _ _ _ inv hok h => ⟨inv.1.step h, inv.2.step inv.1 hok h⟩) hmeets hpost
      ⟨vinv, hfirst⟩).2
    obtain ⟨hsame, hall⟩ := hundisturbed.of_length_eq (by rw [hremoved])
    have htotal := (hall _ hdone).total
    rw [hsame]
    exact (List.append_nil _).symm.trans htotal
  | hangup _ => exact absurd hvle htlt
  | refresh _ _ => exact absurd hvle htlt
  | listen _ => exact absurd hvle htlt
  | finish _ _ => exact absurd hvle htlt

/-! ### A peer that is disconnected -/

/-- The task listens, and a peer is connected and disconnected. -/
def disconnected (n : PeerID) (quit : QuitPacket) : List UpkeepLabel :=
  [.hangup .listen, .listen, .hangup .listened, .hangup (.insert n "local-1"),
    .hangup (.call 0 n quit none), .hangup (.quit 0 .written), .hangup (.remove 0),
    .hangup (.lock 0), .hangup (.fire 0)]

theorem step_hangup {l : HangupLabel} {hangup : HangupState}
    (h : s.hangup.step codec l = some hangup) : s.step overflowChecks codec (.hangup l) =
      some { s with hangup, refresh := { s.refresh with pool := hangup.pool } } :=
  congrArg (Option.map _) h

theorem exec_disconnected (overflowChecks : Bool) (ourPeerId n : PeerID) {quit : QuitPacket}
    {body : Bytes} (hbody : codec.rawBytes (.quit quit) = .ok body) : ∃ s,
      exec (step overflowChecks codec) (init ourPeerId) (disconnected n quit) = some s ∧
        s.stage = .receiving ∧ s.since = 0 ∧ s.hangup.Quiet ∧ s.hangup.lost = [] ∧
        s.hangup.fired.length = 1 ∧
        s.hangup.removed = [(n, ⟨"local-1", 0, none, 0⟩)] := by
  have hnone : (init ourPeerId).hangup.pool.connections[n]? = none := by
    simp [init, HangupState.init, ConnectionPool.new]
  have hn : ((init ourPeerId).hangup.pool.insert n ⟨"local-1", 0, none, 0⟩).connections[n]? =
      some ⟨"local-1", 0, none, 0⟩ := by
    rw [ConnectionPool.getElem?_insert, if_pos rfl]
  refine ⟨_, exec_cons_eq_some.mpr ⟨_, rfl, exec_cons_eq_some.mpr ⟨_, rfl, exec_cons_eq_some.mpr
    ⟨_, rfl, exec_cons_eq_some.mpr ⟨_, step_hangup (HangupState.step_insert_of hnone),
    exec_cons_eq_some.mpr ⟨_, rfl, exec_cons_eq_some.mpr
    ⟨_, step_hangup (HangupState.step_written_of rfl rfl hbody hn), exec_cons_eq_some.mpr
    ⟨_, step_hangup (HangupState.step_remove_of rfl rfl hn), exec_cons_eq_some.mpr ⟨_, rfl,
    (exec_singleton _ _).trans rfl⟩⟩⟩⟩⟩⟩⟩⟩, rfl, rfl, ?_, rfl, rfl, rfl⟩
  intro c call hcall
  rcases c with _ | c
  · cases hcall
    rfl
  · cases hcall

/-- The buckets of that node are refreshed. -/
theorem buckets_refreshed_after_disconnections_once : ∃ labels s,
    exec (step true (listCodec [.quit pingTimeout])) (init ⟨realSha256 []⟩) labels = some s ∧
      s.hangup.removed = [(⟨realSha256 [1]⟩, ⟨"local-1", 0, none, 0⟩)] ∧
      ∃ pre c post t spawned, labels = pre ++ .receive c :: post ∧
        exec (step true (listCodec [.quit pingTimeout])) (init ⟨realSha256 []⟩) pre = some t ∧
        t.hangup.removed = s.hangup.removed ∧
        s.refresh.calls c = some ⟨[], none, spawned⟩ ∧
        (∀ b ∈ spawned, ∃ t d, s.refresh.tasks t = some d ∧ (d.bucketLevel, d.bucketId) = b) ∧
        ((∀ n addr, .hangup (.insert n addr) ∉ post) →
          spawned = s.hangup.pool.refreshBuckets) := by
  have hbody : (listCodec [.quit pingTimeout]).rawBytes (.quit pingTimeout) = .ok [0] := rfl
  obtain ⟨s, hrun, hstage, hsince, hquiet, hlost, hfired, hremoved⟩ :=
    exec_disconnected true ⟨realSha256 []⟩ ⟨realSha256 [1]⟩ hbody
  have hlistening : s.stage ≠ .starting := by
    rw [hstage]
    rintro ⟨⟩
  have inv : UpkeepInv s :=
    invariant_of_exec (fun _ _ _ inv h => UpkeepInv.step inv h) hrun (.init _)
  obtain ⟨ls, s', -, hrest, hidle, hhangup⟩ := exists_idle true _ inv hlistening
  obtain ⟨hlistening', hsince'⟩ := (frame_of_exec hrest).2 hlistening
  rw [← hhangup] at hquiet hlost hfired hremoved
  have htaken : s'.taken ≠ 0 := by
    have hall := hidle.2
    rw [hsince', hsince, hfired] at hall
    omega
  exact ⟨_, s', (exec_append_of hrun).trans hrest, hremoved,
    (buckets_refreshed_after_disconnections true _ ((exec_append_of hrun).trans hrest)
      hlistening').2 hidle hquiet hlost htaken⟩

end UpkeepState

end Tewta
