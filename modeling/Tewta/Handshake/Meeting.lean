import Tewta.Handshake.Refusal

/-!
# A handshake while the pools change

`Meeting` has the two calls of `handshake` on the two ends of a stream take turns
while everything else that the two nodes do changes their pools in any way.  A
call asks its pool once, and for the other end (`asks_for_other`), so such a run is
one in which the pools were, all along, as they were when they were asked
(`Meeting.follows`).
-/

namespace Tewta

open ByteString PeerID Framing Transition Duplex

variable {PrivateKey Seed : Type} {crates : Crates Bytes PrivateKey Seed}

section Ends

variable {ends : Ends crates} {pools : Side → ConnectionPool} {k : Side}

/-! ### Asking once -/

def Session.stage : Session → Stage
  | .enter stage => stage
  | .writing stage _ => stage
  | .reading stage _ => stage

/-- A call is past the check against the pool. -/
def Handshaking.Past : Handshaking → Prop
  | .raw session => 4 < session.stage.point
  | _ => True

instance : DecidablePred Handshaking.Past
  | .raw session => inferInstanceAs (Decidable (4 < session.stage.point))
  | .quitting _ _ => .isTrue trivial
  | .failed _ => .isTrue trivial

/-- A call is about to ask its pool. -/
def Handshaking.Asks (call : Handshaking) : Prop :=
  ∃ theirPublicKey theirNonce, call = .raw (.enter (.checkPool theirPublicKey theirNonce))

theorem not_past_of_asks {call : Handshaking} (h : call.Asks) : ¬ call.Past := by
  obtain ⟨theirPublicKey, theirNonce, rfl⟩ := h
  simp [Handshaking.Past, Session.stage, Stage.point]

/-- The pool matters to a call that asks it, and to no other. -/
theorem act_eq_of_not_asks {ep : Endpoint crates} {call : Handshaking} (h : ¬ call.Asks)
    (pool pool' : ConnectionPool) :
    Handshaking.act ep pool call = Handshaking.act ep pool' call := by
  cases call with
  | raw session =>
    cases session with
    | enter stage =>
      cases stage with
      | checkPool theirPublicKey theirNonce => exact absurd ⟨_, _, rfl⟩ h
      | _ => rfl
    | writing stage left =>
      cases left with
      | nil => rfl
      | cons b left => rfl
    | reading stage got => rfl
  | quitting e left =>
    cases left with
    | nil => rfl
    | cons b left => rfl
  | failed e => rfl

theorem point_decoded {next : Packet → Stage} (h : ∀ p, 4 < (next p).point) (body : Bytes) :
    4 < (decoded crates next body).point := by
  rw [decoded]
  split
  · exact h _
  · simp [Stage.point]

theorem point_received {ep : Endpoint crates} {stage : Stage} (h : 4 < stage.point) (body : Bytes) :
    4 < (stage.received ep body).point := by
  cases stage with
  | recvAes theirPublicKey =>
    rw [Stage.received]
    split
    · refine point_decoded (fun p => ?_) _
      rcases receivedAes_cases ep theirPublicKey p with ⟨q, aesKey, -, -, -, -, hsend⟩ | ⟨e, he⟩
      · rw [hsend, Stage.point]
        omega
      · rw [he, Stage.point]
        omega
    · simp [Stage.point]
  | recvEhlo theirPeerId aesKey =>
    refine point_decoded (fun p => ?_) _
    rcases receivedEhlo_cases theirPeerId aesKey p with ⟨q, -, hok⟩ | ⟨e, he⟩
    · rw [hok, Stage.point]
      omega
    · rw [he, Stage.point]
      omega
  | sendVersion => simp [Stage.point] at h
  | recvVersion => simp [Stage.point] at h
  | sendRsa => simp [Stage.point] at h
  | recvRsa => simp [Stage.point] at h
  | checkPool theirPublicKey theirNonce => simp [Stage.point] at h
  | _ => exact h

theorem point_sent {stage : Stage} (h : 4 < stage.point) : 4 < stage.sent.point := by
  cases stage <;> simp_all [Stage.point, Stage.sent]

theorem point_failed {stage : Stage} (h : 4 < stage.point) (e : HandshakeError) :
    4 < (stage.failed e).point := by
  cases stage <;> simp_all [Stage.point, Stage.failed]

theorem leads_past {ep : Endpoint crates} {pool : ConnectionPool} {call : Handshaking}
    (h : call.Past ∨ call.Asks) : (Handshaking.act ep pool call).Leads Handshaking.Past := by
  rcases h with h | ⟨theirPublicKey, theirNonce, rfl⟩
  · cases call with
    | raw session =>
      have hpoint : 4 < session.stage.point := h
      cases session with
      | enter stage =>
        cases stage with
        | sendAes theirPublicKey theirNonce =>
          simp only [Handshaking.act, Session.act, Stage.awaits]
          cases encryptedFor crates theirPublicKey ep.draws.seed (ep.aesPacket theirNonce) with
          | ok body => exact hpoint
          | error e => exact point_failed hpoint e
        | recvAes theirPublicKey => exact hpoint
        | sendEhlo theirPeerId aesKey =>
          simp only [Handshaking.act, Session.act, Stage.awaits]
          cases encode crates ep.ehloPacket with
          | ok body => exact hpoint
          | error e => exact point_failed hpoint e
        | recvEhlo theirPeerId aesKey => exact hpoint
        | ok theirPeerId addr aesKey => exact trivial
        | err e =>
          simp only [Handshaking.act, Session.act, Stage.awaits, Handshaking.returned]
          cases encode crates (.quit e.toQuit) with
          | ok body => exact trivial
          | error e' => exact trivial
        | _ => simp [Session.stage, Stage.point] at hpoint
      | writing stage left =>
        cases left with
        | nil => exact point_sent hpoint
        | cons b left => exact hpoint
      | reading stage got =>
        simp only [Handshaking.act, Session.act]
        cases hparse : parse maxPacketSize got with
        | incomplete => exact fun b => hpoint
        | tooLarge => exact point_failed hpoint _
        | complete body rest => exact point_received hpoint body
    | quitting e left =>
      cases left with
      | nil => exact trivial
      | cons b left => exact trivial
    | failed e => exact trivial
  · cases hin : pool.contains (fromRsaPublicKey crates.sha256 theirPublicKey) <;>
      simp [Handshaking.act, Session.act, Stage.awaits, Stage.checked, Action.map, Action.Leads,
        Handshaking.Past, Session.stage, hin, Stage.point]

theorem past_of_turn {s t : Pair UInt8 Handshaking} (h : callsStep ends pools s k = some t)
    (hk : (s.state k).Past ∨ (s.state k).Asks) : (t.state k).Past :=
  @Action.Leads.step _ _ (fun l => Handshaking.act (ends l) (pools l)) _ s t k (leads_past hk) h

theorem act_congr {ep : Endpoint crates} {pool pool' : ConnectionPool} {call : Handshaking}
    (h : ∀ theirPublicKey theirNonce, call = .raw (.enter (.checkPool theirPublicKey theirNonce)) →
      pool.contains (fromRsaPublicKey crates.sha256 theirPublicKey) =
        pool'.contains (fromRsaPublicKey crates.sha256 theirPublicKey)) :
    Handshaking.act ep pool call = Handshaking.act ep pool' call := by
  by_cases hasks : call.Asks
  · obtain ⟨theirPublicKey, theirNonce, rfl⟩ := hasks
    simp only [Handshaking.act, Session.act, Stage.awaits, h _ _ rfl]
  · exact act_eq_of_not_asks hasks _ _

theorem halt_of_halt {ep : Endpoint crates} {pool : ConnectionPool} {call : Handshaking}
    (h : Handshaking.act ep pool call = .halt) (pool' : ConnectionPool) :
    Handshaking.act ep pool' call = .halt := by
  have hnot : ¬ call.Asks := by
    rintro ⟨theirPublicKey, theirNonce, rfl⟩
    cases h
  rw [act_eq_of_not_asks hnot pool' pool, h]

end Ends

/-! ### Pools that change -/

/-- Two calls, the pools of their nodes as they are now, and what the pools said
when the calls asked them. -/
structure Meeting where
  calls : Pair UInt8 Handshaking
  pools : Side → ConnectionPool
  known : Side → Bool

inductive MeetingLabel
  /-- a call takes its next step -/
  | turn (k : Side)
  /-- something else changes the pool of a node -/
  | setPool (k : Side) (pool : ConnectionPool)

namespace Meeting

variable (ends : Ends crates)

/-- Neither call has done anything yet. -/
def init (pools : Side → ConnectionPool) : Meeting := ⟨calling, pools, fun _ => false⟩

/-- What the pools have said after the turn of a call. -/
def told (crates : Crates Bytes PrivateKey Seed) (s : Meeting) (k : Side) : Side → Bool :=
  match s.calls.state k with
  | .raw (.enter (.checkPool theirPublicKey _)) =>
    Function.update s.known k
      ((s.pools k).contains (fromRsaPublicKey crates.sha256 theirPublicKey))
  | _ => s.known

def step (s : Meeting) : MeetingLabel → Option Meeting
  | .turn k =>
    (callsStep ends s.pools s.calls k).map fun calls => ⟨calls, s.pools, s.told crates k⟩
  | .setPool k pool => some { s with pools := Function.update s.pools k pool }

/-- What a pool has said, or would say now. -/
def heard (s : Meeting) (k : Side) : Bool :=
  if (s.calls.state k).Past then s.known k else knows ends s.pools k

end Meeting

/-- The turns of a run. -/
def turns : List MeetingLabel → List Side
  | [] => []
  | .turn k :: labels => k :: turns labels
  | .setPool _ _ :: labels => turns labels

namespace Meeting

variable {ends : Ends crates} {s t : Meeting} {k : Side}

theorem told_of_not_asks (h : ¬ (s.calls.state k).Asks) : s.told crates k = s.known := by
  rw [told]
  split
  · rename_i theirPublicKey theirNonce hstate
    exact absurd ⟨_, _, hstate⟩ h
  · rfl

theorem told_of_asks {theirPublicKey : RsaPublicKey} {theirNonce : Bytes}
    (h : s.calls.state k = .raw (.enter (.checkPool theirPublicKey theirNonce))) :
    s.told crates k = Function.update s.known k
      ((s.pools k).contains (fromRsaPublicKey crates.sha256 theirPublicKey)) := by
  simp only [told, h]

theorem told_other {l : Side} (h : l ≠ k) : s.told crates k l = s.known l := by
  by_cases hasks : (s.calls.state k).Asks
  · obtain ⟨theirPublicKey, theirNonce, hstate⟩ := hasks
    rw [told_of_asks hstate, Function.update_of_ne h]
  · rw [told_of_not_asks hasks]

theorem step_turn (h : s.step ends (.turn k) = some t) :
    ∃ calls, callsStep ends s.pools s.calls k = some calls ∧
      t = ⟨calls, s.pools, s.told crates k⟩ := by
  obtain ⟨calls, hcalls, ht⟩ := Option.map_eq_some_iff.mp h
  exact ⟨calls, hcalls, ht.symm⟩

end Meeting

section Meeting

variable {ends : Ends crates} {pools : Side → ConnectionPool} {k : Side}

theorem asks_for_other (hr : Reliable crates ends) (hq : QuitsInClear crates ends) {ls : List Side}
    {s : Pair UInt8 Handshaking}
    (hrun : ∀ pool, exec (callsStep ends (Function.update pools k pool)) calling ls = some s)
    {theirPublicKey : RsaPublicKey} {theirNonce : Bytes}
    (hs : s.state k = .raw (.enter (.checkPool theirPublicKey theirNonce))) :
    fromRsaPublicKey crates.sha256 theirPublicKey = (ends k.other).identity.peerId := by
  by_contra hne
  -- with a pool that has that peer, but not the other end
  let pool : ConnectionPool := (ConnectionPool.new (ends k).identity.peerId).insert
    (fromRsaPublicKey crates.sha256 theirPublicKey) ⟨"", 0, none, 0⟩
  have hin : pool.contains (fromRsaPublicKey crates.sha256 theirPublicKey) = true := by
    rw [ConnectionPool.contains_eq_isSome, ConnectionPool.getElem?_insert, if_pos rfl]
    rfl
  have hrun := hrun pool
  generalize hpools : Function.update pools k pool = changed at hrun
  have hpool : changed k = pool := by rw [← hpools, Function.update_self]
  have hout : knows ends changed k = false := by
    rw [knows, hpool, ConnectionPool.contains_eq_isSome, ConnectionPool.getElem?_insert,
      if_neg hne]
    simp [ConnectionPool.new]
  -- the call would be refused, for a reason for which it is not
  have hask : Handshaking.act (ends k) (changed k) (s.state k) =
      .internal (.raw (.enter (.err .alreadyConnected))) := by
    rw [hs, hpool]
    simp [Handshaking.act, Session.act, Stage.awaits, Stage.checked, hin, Action.map]
  obtain ⟨body, hbody, -⟩ := hq.encodes .alreadyConnected
  obtain ⟨ls', t, hls', ht, -⟩ := exec_writes (.internal hask (writes_quit hbody)) rfl
  have hstate : t.state k = .failed .alreadyConnected := by rw [ht, Function.update_self]
  have hends := endsAs_of_halt hr hq ((exec_append_of hrun).trans hls')
    (show Handshaking.act (ends k) (changed k) (t.state k) = .halt by
      rw [hstate, Handshaking.act])
  rw [hstate, EndsAs] at hends
  have hrefusal := refusal_ne_alreadyConnected ends hout
  cases hk : refusal ends (knows ends changed) k with
  | some e =>
    simp only [hk, Handshaking.failed.injEq] at hends
    exact hrefusal (hk.trans (congrArg some hends.symm))
  | none =>
    cases ho : refusal ends (knows ends changed) k.other with
    | some e => simp [hk, ho] at hends
    | none => simp [hk, ho] at hends

/-- The turns so far are a run with any pools that say what the pools have said when they
were asked. -/
def Meeting.Follows (ends : Ends crates) (s : Meeting) (ls : List Side) : Prop :=
  ∀ fixed : Side → ConnectionPool,
    (∀ k, (s.calls.state k).Past → knows ends fixed k = s.known k) →
    exec (callsStep ends fixed) calling ls = some s.calls

theorem Meeting.Follows.turn (hr : Reliable crates ends) (hq : QuitsInClear crates ends)
    {s t : Meeting} {ls : List Side} (h : s.Follows ends ls)
    (ht : s.step ends (.turn k) = some t) : t.Follows ends (ls ++ [k]) := by
  obtain ⟨calls, hcalls, rfl⟩ := step_turn ht
  intro fixed hfixed
  have hfixed : ∀ l, (calls.state l).Past → knows ends fixed l = s.told crates k l := hfixed
  have hagree : ∀ l, (s.calls.state l).Past → knows ends fixed l = s.known l := by
    intro l hpast
    by_cases hl : l = k
    · subst hl
      rw [hfixed l (past_of_turn hcalls (Or.inl hpast)),
        told_of_not_asks fun hasks => not_past_of_asks hasks hpast]
    · have hsame : calls.state l = s.calls.state l := state_other hcalls hl
      rw [hfixed l (by rw [hsame]; exact hpast), told_other hl]
  rw [exec_append_of (h fixed hagree), exec_singleton, ← hcalls]
  refine step_congr (act_congr fun theirPublicKey theirNonce hstate => ?_)
  have hasks : (s.calls.state k).Asks := ⟨_, _, hstate⟩
  have hother : fromRsaPublicKey crates.sha256 theirPublicKey =
      (ends k.other).identity.peerId := by
    refine asks_for_other hr hq (fun pool => h (Function.update fixed k pool) fun l hpast => ?_)
      hstate
    have hl : l ≠ k := by
      rintro rfl
      exact not_past_of_asks hasks hpast
    rw [← hagree l hpast, knows, knows, Function.update_of_ne hl]
  have hsaid := hfixed k (past_of_turn hcalls (Or.inr hasks))
  rw [told_of_asks hstate, Function.update_self, knows, ← hother] at hsaid
  exact hsaid

/-- **What the pools said is all that matters.** -/
theorem Meeting.follows (hr : Reliable crates ends) (hq : QuitsInClear crates ends)
    {labels : List MeetingLabel} {s t : Meeting} {ls : List Side} (h : s.Follows ends ls)
    (hrun : exec (Meeting.step ends) s labels = some t) : t.Follows ends (ls ++ turns labels) := by
  induction labels generalizing s ls with
  | nil =>
    cases hrun
    rw [turns, List.append_nil]
    exact h
  | cons label labels ih =>
    obtain ⟨u, hu, hrest⟩ := exec_cons_eq_some.mp hrun
    cases label with
    | turn k =>
      have hlast := ih (h.turn hr hq hu) hrest
      rwa [List.append_assoc, List.singleton_append] at hlast
    | setPool k pool =>
      cases hu
      have hset : Meeting.Follows ends { s with pools := Function.update s.pools k pool } ls := h
      exact ih hset hrest

theorem Meeting.follows_init (pools : Side → ConnectionPool) :
    (Meeting.init pools).Follows ends [] := fun _ _ => rfl

/-- The turns of a run with fixed pools can be taken while the pools stay as they are, if
those are the pools that will be asked. -/
theorem Meeting.exec_turns {fixed : Side → ConnectionPool} {s : Meeting} {ls : List Side}
    {calls : Pair UInt8 Handshaking}
    (hfixed : ∀ k, ¬ (s.calls.state k).Past → fixed k = s.pools k)
    (h : exec (callsStep ends fixed) s.calls ls = some calls) :
    ∃ t, exec (Meeting.step ends) s (ls.map .turn) = some t ∧ t.calls = calls := by
  induction ls generalizing s with
  | nil =>
    cases h
    exact ⟨s, rfl, rfl⟩
  | cons k ls ih =>
    obtain ⟨next, hnext, hrest⟩ := exec_cons_eq_some.mp h
    have hturn : callsStep ends s.pools s.calls k = some next := by
      rw [← hnext]
      refine step_congr (act_congr fun theirPublicKey theirNonce hstate => ?_)
      rw [hfixed k (not_past_of_asks ⟨_, _, hstate⟩)]
    have hfixed' : ∀ l, ¬ (next.state l).Past → fixed l = s.pools l := by
      intro l hl
      refine hfixed l fun hpast => hl ?_
      by_cases hlk : l = k
      · subst hlk
        exact past_of_turn hturn (Or.inl hpast)
      · rwa [state_other hturn hlk]
    obtain ⟨t, ht, hcalls⟩ := ih (s := ⟨next, s.pools, s.told crates k⟩) hfixed' hrest
    exact ⟨t, exec_cons_eq_some.mpr ⟨_, by rw [Meeting.step, hturn]; rfl, ht⟩, hcalls⟩

/-! ### Every run -/

theorem exists_pool_saying (n : PeerID) (said : Bool) :
    ∃ pool : ConnectionPool, pool.contains n = said := by
  cases said with
  | false => exact ⟨.new n, by simp [ConnectionPool.contains, ConnectionPool.new]⟩
  | true =>
    refine ⟨(ConnectionPool.new n).insert n ⟨"", 0, none, 0⟩, ?_⟩
    rw [ConnectionPool.contains_eq_isSome, ConnectionPool.getElem?_insert, if_pos rfl]
    rfl

theorem exists_knows_eq (ends : Ends crates) (known : Side → Bool) :
    ∃ fixed : Side → ConnectionPool, knows ends fixed = known := by
  choose fixed hfixed using fun k => exists_pool_saying (ends k.other).identity.peerId (known k)
  exact ⟨fixed, funext hfixed⟩

/-- The pools as they were when they were asked, and as they are if they were not. -/
theorem Meeting.exists_asked (ends : Ends crates) (s : Meeting) :
    ∃ fixed : Side → ConnectionPool, knows ends fixed = s.heard ends ∧
      ∀ k, ¬ (s.calls.state k).Past → fixed k = s.pools k := by
  obtain ⟨said, hsaid⟩ := exists_knows_eq ends s.known
  refine ⟨fun k => if (s.calls.state k).Past then said k else s.pools k, funext fun k => ?_,
    fun k hnot => if_neg hnot⟩
  rw [knows, heard]
  split
  · exact congrFun hsaid k
  · rfl

theorem Meeting.heard_of_past {s : Meeting} (h : (s.calls.state k).Past) :
    s.heard ends k = s.known k := if_pos h

variable {s : Meeting} {labels : List MeetingLabel}

theorem Meeting.endsAs_of_halt (hr : Reliable crates ends) (hq : QuitsInClear crates ends)
    (hrun : exec (Meeting.step ends) (.init pools) labels = some s)
    (hk : Handshaking.act (ends k) (s.pools k) (s.calls.state k) = .halt) :
    EndsAs ends s.known k (s.calls.state k) := by
  obtain ⟨fixed, hfixed⟩ := exists_knows_eq ends s.known
  have hcalls := Meeting.follows hr hq (Meeting.follows_init pools) hrun fixed
    fun k _ => congrFun hfixed k
  rw [← hfixed]
  exact Tewta.endsAs_of_halt hr hq hcalls (halt_of_halt hk (fixed k))

theorem Meeting.exists_turn (hr : Reliable crates ends) (hq : QuitsInClear crates ends)
    (hrun : exec (Meeting.step ends) (.init pools) labels = some s)
    (hne : Handshaking.act (ends k) (s.pools k) (s.calls.state k) ≠ .halt) :
    ∃ l t, s.step ends (.turn l) = some t := by
  obtain ⟨fixed, hheard, hnot⟩ := s.exists_asked ends
  have hcalls := Meeting.follows hr hq (Meeting.follows_init pools) hrun fixed
    fun k hpast => (congrFun hheard k).trans (heard_of_past hpast)
  obtain ⟨l, t, hl⟩ := Tewta.exists_turn hr hq hcalls (k := k)
    fun hhalt => hne (halt_of_halt hhalt (s.pools k))
  have hturn : callsStep ends s.pools s.calls l = some t := by
    rw [← hl]
    refine step_congr (act_congr fun theirPublicKey theirNonce hstate => ?_)
    rw [hnot l (not_past_of_asks ⟨_, _, hstate⟩)]
  exact ⟨l, _, by rw [Meeting.step, hturn]; rfl⟩

theorem Meeting.exists_exec_endsAs (hr : Reliable crates ends) (hq : QuitsInClear crates ends)
    (hrun : exec (Meeting.step ends) (.init pools) labels = some s) :
    ∃ (ls : List Side) (t : Meeting), exec (Meeting.step ends) s (ls.map .turn) = some t ∧
      ∀ k, EndsAs ends (s.heard ends) k (t.calls.state k) := by
  obtain ⟨fixed, hheard, hnot⟩ := s.exists_asked ends
  have hcalls := Meeting.follows hr hq (Meeting.follows_init pools) hrun fixed
    fun k hpast => (congrFun hheard k).trans (heard_of_past hpast)
  obtain ⟨ls, calls, hls, hends⟩ := Tewta.exists_exec_endsAs hr hq hcalls
  obtain ⟨t, ht, rfl⟩ := Meeting.exec_turns hnot hls
  rw [hheard] at hends
  exact ⟨ls, t, ht, hends⟩

/-- The turns that can be taken are bounded, as what the pools say is one of four things. -/
theorem Meeting.exists_length_le (hr : Reliable crates ends) (hq : QuitsInClear crates ends)
    (hrun : exec (Meeting.step ends) (.init pools) labels = some s) :
    ∃ bound, ∀ labels' t, exec (Meeting.step ends) s labels' = some t →
      (turns labels').length ≤ bound := by
  choose fixed hfixed using exists_knows_eq ends
  choose bound hbound using fun known => Tewta.exists_length_le hr hq (fixed known)
  obtain ⟨most, hmost⟩ := Finite.exists_le bound
  refine ⟨most, fun labels' t ht => ?_⟩
  have hcalls := Meeting.follows hr hq
    (Meeting.follows hr hq (Meeting.follows_init pools) hrun) ht (fixed t.known)
    fun k _ => congrFun (hfixed t.known) k
  have hlen := (hbound t.known _ _ hcalls).trans (hmost t.known)
  rw [List.length_append] at hlen
  omega

end Meeting

/-- **The calls of both ends end alike.**  Whatever two honest nodes think of each
other, however their pools change, and whatever the order in which their ends of a
stream have taken their turns so far: one of them can take a turn until both have
returned; an end that has returned has refused the other with the first check that
failed, or was refused and has got an error of the decryption instead of the reason,
or has the id and the address of an end that has the same key; and every run has
finitely many turns and can be completed. -/
theorem handshakes_end_alike (crates : Crates Bytes PrivateKey Seed) (ends : Ends crates)
    (pools : Side → ConnectionPool) (hr : Reliable crates ends) (hq : QuitsInClear crates ends)
    (labels : List MeetingLabel) (s : Meeting)
    (hrun : exec (Meeting.step ends) (.init pools) labels = some s) :
    ((∃ k, Handshaking.act (ends k) (s.pools k) (s.calls.state k) ≠ .halt) →
      ∃ k t, s.step ends (.turn k) = some t) ∧
    (∀ k, Handshaking.act (ends k) (s.pools k) (s.calls.state k) = .halt →
      EndsAs ends s.known k (s.calls.state k)) ∧
    (∃ bound, ∀ labels' t, exec (Meeting.step ends) s labels' = some t →
      (turns labels').length ≤ bound) ∧
    ∃ (ls : List Side) (t : Meeting), exec (Meeting.step ends) s (ls.map .turn) = some t ∧
      ∀ k, EndsAs ends (s.heard ends) k (t.calls.state k) := by
  refine ⟨?_, fun k hk => Meeting.endsAs_of_halt hr hq hrun hk,
    Meeting.exists_length_le hr hq hrun, Meeting.exists_exec_endsAs hr hq hrun⟩
  rintro ⟨k, hne⟩
  exact Meeting.exists_turn hr hq hrun hne

/-! ### A pair of nodes -/

theorem dialPackets_reliable : Reliable (pairCrates dialPackets) (pairEnds dialPackets) :=
  pair_reliable (fun _ h => List.mem_append_left _ (List.mem_append_left _ h)) (by decide)

theorem dialPackets_quitsInClear :
    QuitsInClear (pairCrates dialPackets) (pairEnds dialPackets) where
  encodes := dialPair_quitsWork.ofError
  clear := dialPair_quitsWork.clear

/-- The pool of a node without connections. -/
def pairPool (k : Side) : ConnectionPool := .new (pairEnds dialPackets k).identity.peerId

/-- The pool of the left node once it has the right one. -/
def poolWithRight : ConnectionPool :=
  (pairPool .left).insert (pairEnds dialPackets .right).identity.peerId ⟨"local-1", 0, none, 0⟩

/-- The left node has got the right one into its pool. -/
def meetingWithRight : Meeting := ⟨calling, Function.update pairPool .left poolWithRight, fun _ => false⟩

theorem refusal_left :
    refusal (pairEnds dialPackets) (meetingWithRight.heard (pairEnds dialPackets)) .left =
      some .alreadyConnected := by
  have hknown : meetingWithRight.heard (pairEnds dialPackets) .left = true := by
    show poolWithRight.contains (pairEnds dialPackets .right).identity.peerId = true
    rw [poolWithRight, ConnectionPool.contains_eq_isSome, ConnectionPool.getElem?_insert,
      if_pos rfl]
    rfl
  simp only [refusal, Side.other, if_neg (pair_distinct dialPackets).ne, hknown, if_true]
  rfl

theorem refusal_right :
    refusal (pairEnds dialPackets) (meetingWithRight.heard (pairEnds dialPackets)) .right = none := by
  have hknown : meetingWithRight.heard (pairEnds dialPackets) .right = false := by
    show (pairPool .right).contains (pairEnds dialPackets .left).identity.peerId = false
    simp [pairPool, ConnectionPool.contains, ConnectionPool.new]
  simp only [refusal, Side.other, if_neg (pair_distinct dialPackets).ne.symm, hknown]
  rfl

/-- The left node gets the right one into its pool before its call asks, and refuses;
the right one gets an error that does not say so. -/
theorem handshakes_end_alike_connected :
    ∃ (ls : List Side) (t : Meeting) (e : ExternalError),
      exec (Meeting.step (pairEnds dialPackets)) (.init pairPool)
        (.setPool .left poolWithRight :: ls.map .turn) = some t ∧
      t.calls.state .left = .failed .alreadyConnected ∧
      t.calls.state .right = .failed (.rsaError e) := by
  have hset : (Meeting.init pairPool).step (pairEnds dialPackets) (.setPool .left poolWithRight) =
      some meetingWithRight := rfl
  obtain ⟨-, -, -, ls, t, ht, hends⟩ := handshakes_end_alike (pairCrates dialPackets)
    (pairEnds dialPackets) pairPool dialPackets_reliable dialPackets_quitsInClear
    [.setPool .left poolWithRight] _ ((exec_singleton _ _).trans hset)
  have hleft := hends .left
  have hright := hends .right
  simp only [EndsAs, Side.other, refusal_left, refusal_right] at hleft hright
  obtain ⟨e, he⟩ := hright
  exact ⟨ls, t, e, exec_cons_eq_some.mpr ⟨_, hset, ht⟩, hleft, he⟩

end Tewta
