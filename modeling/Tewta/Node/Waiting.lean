import Tewta.Node.Correlation
import Tewta.Node.Requests.Removals

/-!
# Lookups that wait

A lookup waits without a timeout.  It is served while its response is on the way: the
response waits at its receiver, or the connection its request was written on is still in
the pool.  `lookups_served_iff_answerable` says which steps leave one behind: a
removal of the peer, be it by another lookup that is done with its own connection,
and a request that finds no connection to be written on.
-/

namespace Tewta

open Broadcast NodeState Transition

namespace AskState

variable {codec : Codec Bytes} {s s' : AskState} {l : AskLabel} {n : PeerID}

/-! ### Lookups -/

/-- A response waits at the receiver of a request. -/
def Answered (s : AskState) (req : Request) : Prop :=
  ∃ x, req.listening = some x ∧
    ∃ event ∈ (s.listeners req.topic).queue x.receiver, req.Answers event

/-- The connection that a request was written on is in the pool. -/
def Connected (s : AskState) (req : Request) : Prop :=
  ∃ w peer, req.sent = some w ∧ s.node.pool.connections[req.peerId]? = some peer ∧
    w.stream = some peer.writeStream

/-- Every lookup that waits has its response at its receiver, or its connection in the
pool. -/
def LookupsServed (s : AskState) : Prop :=
  ∀ r req, s.requests r = some req → req.topic = .findDhtValueResp → req.Waiting →
    s.Answered req ∨ s.Connected req

/-- A step leaves no lookup behind: it removes no peer while a lookup waits for it with no
response at its receiver, and a lookup that is about to send has a connection, and a
request that serializes, or its response already. -/
structure Answerable (codec : Codec Bytes) (s : AskState) (l : AskLabel) : Prop where
  removes : ∀ n, s.Removes l n → ∀ r req, s.requests r = some req →
    req.topic = .findDhtValueResp → req.Waiting → req.peerId = n → s.Answered req
  sends : ∀ r writes req, l = .run r writes → s.requests r = some req →
    req.topic = .findDhtValueResp → req.phase = .asking → req.todo = [.send] →
      s.streamOf codec req ≠ none ∨ s.Answered req

/-- While a request asks, its responses are those that were fired since it listens. -/
theorem answered_iff (inv : AskInv s) {r : ℕ} {req : Request} (hr : s.requests r = some req)
    (hasking : req.phase = .asking) : s.Answered req ↔
      ∃ x, req.listening = some x ∧ ∃ j p, x.after ≤ j ∧
        s.node.fired[j]? = some (req.peerId, p) ∧ req.topic.idOf p = some req.id := by
  have hsound := inv.sound r req hr
  constructor
  · rintro ⟨x, hx, event, hmem, hpeer, hid⟩
    obtain ⟨hfired, hle⟩ := hsound.queued x hx event hmem
    rw [hpeer] at hfired
    exact ⟨x, hx, event.number, event.packet, hle, hfired, hid⟩
  · rintro ⟨x, hx, j, p, hj, hfired, hid⟩
    exact ⟨x, hx, _, hsound.complete hasking x hx j p hj hfired hid, rfl, hid⟩

/-- A response that waits stays, as long as the request asks. -/
theorem Answered.mono (inv : AskInv s) (inv' : AskInv s') {r : ℕ} {req req' : Request}
    (hr : s.requests r = some req) (hr' : s'.requests r = some req')
    (hasking : req.phase = .asking) (hasking' : req'.phase = .asking)
    (hlistening : req'.listening = req.listening) (htopic : req'.topic = req.topic)
    (hid : req'.id = req.id) (hpeer : req'.peerId = req.peerId)
    (hfired : s.node.fired <+: s'.node.fired) (h : s.Answered req) : s'.Answered req' := by
  rw [answered_iff inv hr hasking] at h
  rw [answered_iff inv' hr' hasking']
  obtain ⟨x, hx, j, p, hj, hget, hanswers⟩ := h
  refine ⟨x, hlistening.trans hx, j, p, hj, ?_, ?_⟩
  · rw [hpeer]
    obtain ⟨later, hlater⟩ := hfired
    rw [← hlater]
    exact (List.getElem?_append_left (List.getElem?_eq_some_iff.mp hget).1).trans hget
  · rw [htopic, hid]
    exact hanswers

/-- A lookup that waits waited before, or has just sent its request. -/
theorem waiting_cases (inv : AskInv s) (h : s.step codec l = some s') {r : ℕ} {req' : Request}
    (hr' : s'.requests r = some req') (htopic : req'.topic = .findDhtValueResp)
    (hwaiting : req'.Waiting) : s.requests r = some req' ∨
      ∃ req writes, l = .run r writes ∧ s.requests r = some req ∧ req.phase = .asking ∧
        req.todo = [.send] ∧ s'.node.pool = s.node.pool ∧
        req' = { req with
          todo := [], sent := some ⟨s.node.fired.length, s.streamOf codec req⟩ } := by
  have hother : ∀ {r' : ℕ} {new : Request},
      s'.requests = Function.update s.requests r' (some new) → ¬ new.Waiting →
        s.requests r = some req' := by
    intro r' new hrequests hnew
    rw [hrequests] at hr'
    rcases update_eq_cases hr' with ⟨-, heq⟩ | ⟨-, hr'⟩
    · obtain rfl := Option.some.inj heq
      exact absurd hwaiting hnew
    · exact hr'
  cases step_cases h with
  | node =>
    rw [requests_afterNode] at hr'
    exact Or.inl hr'
  | @ask r' question peerId closes =>
    refine Or.inl (hother rfl fun hnew => ?_)
    cases question <;> cases hnew.2
  | @listen r' req todo writes hr hasking htodo =>
    rcases update_eq_cases hr' with ⟨rfl, heq⟩ | ⟨-, hr'⟩
    · -- a lookup still has to send
      obtain rfl := Option.some.inj heq
      have hactions : req.question.actions = [.listen, .send] :=
        Question.actions_of_topic fun hpong => by
          have hlookup : req.question.topic = .findDhtValueResp := htopic
          rw [hpong] at hlookup
          cases hlookup
      have hnil : todo = [] := hwaiting.2
      cases (inv.sound r req hr).course with
      | start htodo' =>
        rw [htodo, hactions, hnil] at htodo'
        cases htodo'
      | listened _ htodo' =>
        rw [htodo] at htodo'
        cases htodo'
      | sent hfirst =>
        rw [hactions] at hfirst
        cases hfirst
      | done htodo' =>
        rw [htodo] at htodo'
        cases htodo'
    · exact Or.inl hr'
  | @send r' req todo writes node hr hasking htodo hnode =>
    rcases update_eq_cases hr' with ⟨rfl, heq⟩ | ⟨-, hr'⟩
    · obtain rfl := Option.some.inj heq
      have hnil : todo = [] := hwaiting.2
      subst hnil
      refine Or.inr ⟨req, writes, rfl, hr, hasking, htodo, ?_, rfl⟩
      rcases sendPacket_cases hnode with rfl | ⟨peer, body, -, -, -, rfl⟩ <;> rfl
    · exact Or.inl hr'
  | ignore => exact Or.inl hr'
  | @accept r' req x event rest writes =>
    refine Or.inl (hother requests_setPhase fun hnew => ?_)
    exact req.answered_ne_asking event hnew.1
  | @close r' req answer stage node next writes =>
    refine Or.inl (hother requests_setPhase fun hnew => ?_)
    cases next <;> cases hnew.1
  | fail _ _ hphase =>
    refine Or.inl (hother requests_setPhase fun hnew => ?_)
    rcases hphase with rfl | rfl <;> cases hnew.1
  | @timeout r' req x =>
    exact Or.inl (hother requests_setPhase fun hnew => req.gaveUp_ne_asking hnew.1)

theorem streamOf_eq_some {req : Request} {stream : StreamId}
    (h : s.streamOf codec req = some stream) :
    ∃ peer, s.node.pool.connections[req.peerId]? = some peer ∧ stream = peer.writeStream := by
  rw [streamOf] at h
  split at h
  · obtain ⟨peer, hpeer, rfl⟩ := Option.map_eq_some_iff.mp h
    exact ⟨peer, hpeer, rfl⟩
  · cases h

/-- **A step that leaves no lookup behind** keeps the lookups served. -/
theorem LookupsServed.step (inv : AskInv s) (h : s.LookupsServed) (hok : s.Answerable codec l)
    (hstep : s.step codec l = some s') : s'.LookupsServed := by
  intro r req' hr' htopic hwaiting
  have hfired := fired_prefix hstep
  rcases waiting_cases inv hstep hr' htopic hwaiting with hr |
    ⟨req, writes, rfl, hr, hasking, htodo, hpool, rfl⟩
  · have hstay : s.Answered req' → s'.Answered req' :=
      .mono inv (inv.step hstep) hr hr' hwaiting.1 hwaiting.1 rfl rfl rfl rfl hfired
    rcases h r req' hr htopic hwaiting with hanswered | ⟨w, peer, hw, hn, hstream⟩
    · exact Or.inl (hstay hanswered)
    · rcases entry_of_step hstep hn with hn' | hremoves
      · exact Or.inr ⟨w, peer, hw, hn', hstream⟩
      · exact Or.inl (hstay (hok.removes _ hremoves r req' hr htopic hwaiting rfl))
  · rcases hok.sends r writes req rfl hr htopic hasking htodo with hsent | hanswered
    · obtain ⟨stream, hstream⟩ := Option.ne_none_iff_exists'.mp hsent
      obtain ⟨peer, hn, rfl⟩ := streamOf_eq_some hstream
      exact Or.inr ⟨_, peer, rfl, hpool ▸ hn, hstream⟩
    · exact Or.inl (.mono inv (inv.step hstep) hr hr' hasking hasking rfl rfl rfl rfl hfired
        hanswered)

/-- A removal leaves the requests that ask as they are. -/
theorem requests_of_removes (h : s.step codec l = some s') (hl : s.Removes l n) {r : ℕ}
    {req : Request} (hr : s.requests r = some req) (hasking : req.phase = .asking) :
    s'.requests r = some req := by
  cases l with
  | node l =>
    obtain ⟨node, -, rfl⟩ := Option.map_eq_some_iff.mp h
    rw [requests_afterNode]
    exact hr
  | run r' writes =>
    obtain ⟨req', answer, hr', -, hphase⟩ := hl
    have hne : r ≠ r' := by
      rintro rfl
      obtain rfl : req = req' := Option.some.inj (hr.symm.trans hr')
      rw [hasking] at hphase
      cases hphase
    obtain ⟨u, next, hsec, -⟩ :=
      exists_removing codec s.node req'.peerId (closingQuit answer) writes
    simp only [step, hr', run, hphase, hsec] at h
    cases next with
    | none =>
      cases h
      rw [requests_setPhase]
      exact (Function.update_of_ne hne _ _).trans hr
    | some stage =>
      cases h
      rw [requests_setPhase]
      exact (Function.update_of_ne hne _ _).trans hr
  | _ => exact hl.elim

/-- A request that has no connection, or does not serialize, is not written. -/
theorem sendPacket_of_streamOf_eq_none {req : Request} (writes : Bool)
    (h : s.streamOf codec req = none) :
    s.node.sendPacket codec req.peerId (req.question.packet req.id) writes = some s.node := by
  have hunchecked : s.node.sendPacketUnchecked codec req.peerId (req.question.packet req.id) writes =
      some s.node := by
    rw [streamOf] at h
    rw [sendPacketUnchecked]
    split at h
    · rename_i body hbody
      rw [hbody, Option.map_eq_none_iff.mp h]
    · rename_i e he
      rw [he]
  rw [← hunchecked]
  cases req.question <;> rfl

/-- **A step that leaves a lookup behind** leaves it unserved. -/
theorem not_lookupsServed (inv : AskInv s) (hbad : ¬ s.Answerable codec l)
    (hstep : s.step codec l = some s') : ¬ s'.LookupsServed := by
  intro hserved
  have inv' := inv.step hstep
  refine hbad ⟨fun n hremoves r req hr htopic hwaiting hpeer => ?_,
    fun r writes req hl hr htopic hasking htodo => ?_⟩
  · obtain ⟨hgone, hfired, -⟩ := removed_of_removes hstep hremoves
    have hr' := requests_of_removes hstep hremoves hr hwaiting.1
    rcases hserved r req hr' htopic hwaiting with hanswered | ⟨w, peer, -, hn, -⟩
    · exact .mono inv' inv hr' hr hwaiting.1 hwaiting.1 rfl rfl rfl rfl
        (hfired ▸ List.prefix_rfl) hanswered
    · rw [hpeer, hgone] at hn
      cases hn
  · subst hl
    by_contra hnone
    rw [not_or, not_not] at hnone
    have hsend := sendPacket_of_streamOf_eq_none writes hnone.1
    simp only [step, hr, run, hasking, runAsking, htodo, hsend, hnone.1] at hstep
    cases hstep
    rcases hserved r _ (Function.update_self _ _ _) htopic ⟨rfl, rfl⟩ with
      hanswered | ⟨w, peer, hw, -, hstream⟩
    · refine hnone.2 ?_
      exact .mono inv' inv (Function.update_self _ _ _) hr rfl hasking rfl rfl rfl rfl
        List.prefix_rfl hanswered
    · cases hw
      cases hstream

end AskState

/-- **Every lookup that waits is served, exactly as long as no step leaves one behind.** -/
theorem lookups_served_iff_answerable (codec : Codec Bytes) (ourPeerId : PeerID)
    {labels : List AskLabel} {s : AskState}
    (hrun : exec (AskState.step codec) (.init ourPeerId) labels = some s) :
    Always (AskState.step codec) AskState.LookupsServed (.init ourPeerId) labels ↔
      Meets (AskState.step codec) (AskState.Answerable codec) (.init ourPeerId) labels := by
  have hinit : (AskState.init ourPeerId).LookupsServed := by
    intro r req hr
    cases hr
  refine always_iff_meets (I := fun s => AskInv s ∧ s.LookupsServed) ?_ ?_ ?_ hrun
    ⟨.init ourPeerId, hinit⟩
  · intro s l t ⟨inv, h⟩ hok hl
    exact ⟨inv.step hl, h.step inv hok hl⟩
  · intro s ⟨_, h⟩
    exact h
  · intro s l t ⟨inv, _⟩ hbad hl
    exact AskState.not_lookupsServed inv hbad hl

/-! ### Two lookups on one connection -/

/-- A codec for two lookups, the first response and the Quit. -/
def firstResponseCodec : Codec Bytes :=
  listCodec [(Question.findDhtValue lookedUpKey).packet 0,
    (Question.findDhtValue lookedUpKey).packet 1, emptyResponse 0,
    .quit { reasonCode := "MissionAccomplished", message := none, reportFault := false }]

/-- A lookup has a connection of its own, and another finds it in the pool.  The first is
answered, and disconnects. -/
def missionAccomplished (n : PeerID) : List AskLabel :=
  .node (.insert n "local-1") :: (AskState.lookUp 0 lookedUpKey n true ++
    AskState.lookUp 1 lookedUpKey n false ++ AskState.respond 0 0 [2] ++
    [.run 0 true, .run 0 true, .run 0 true])

theorem exec_missionAccomplished (ourPeerId n : PeerID) :
    ∃ s, exec (AskState.step firstResponseCodec) (.init ourPeerId) (missionAccomplished n) = some s ∧
      ¬ s.LookupsServed := by
  -- two lookups wait
  let s₁ : AskState := { AskState.init ourPeerId with
    node := connected firstResponseCodec ourPeerId n }
  have hentry : s₁.node.pool.connections[n]? = some ⟨"local-1", 0, none, 0⟩ :=
    getElem?_connected firstResponseCodec ourPeerId n
  obtain ⟨htask, hin, hopen, hfired⟩ := connected_spec firstResponseCodec ourPeerId n
  have h₁ : (AskState.init ourPeerId).step firstResponseCodec (.node (.insert n "local-1")) =
      some s₁ := AskState.step_insert firstResponseCodec ourPeerId n
  let s₂ := s₁.afterLookUp 0 lookedUpKey n true 0
  have h₂ : exec (AskState.step firstResponseCodec) s₁ (AskState.lookUp 0 lookedUpKey n true) =
      some s₂ := AskState.exec_lookUp rfl hentry rfl
  let s₃ := s₂.afterLookUp 1 lookedUpKey n false 0
  have h₃ : exec (AskState.step firstResponseCodec) s₂ (AskState.lookUp 1 lookedUpKey n false) =
      some s₃ := AskState.exec_lookUp (s := s₂) rfl hentry rfl
  -- the first is answered
  let s₄ := s₃.afterRespond [] n (emptyResponse 0)
  have h₄ : exec (AskState.step firstResponseCodec) s₃ (AskState.respond 0 0 [2]) = some s₄ :=
    AskState.exec_respond (s := s₃) hfired (by decide) rfl htask hin hopen (fun _ _ _ => rfl)
  have hr₀ : s₄.requests 0 = some (s₁.lookedUp lookedUpKey n true 0) := rfl
  have hr₁ : s₄.requests 1 = some (s₂.lookedUp lookedUpKey n false 0) := rfl
  have hentry₄ : s₄.node.pool.connections[n]? = some ⟨"local-1", 0, none, 0⟩ := hentry
  have hfired₄ : s₄.node.fired = [(n, emptyResponse 0)] := rfl
  have hqueue : (s₄.listeners .findDhtValueResp).queue 0 = [⟨0, n, emptyResponse 0⟩] :=
    AskState.queue_afterRespond rfl rfl
  have hanswers : (s₁.lookedUp lookedUpKey n true 0).Answers ⟨0, n, emptyResponse 0⟩ := ⟨rfl, rfl⟩
  have hx₀ : (s₁.lookedUp lookedUpKey n true 0).listening = some ⟨0, s₁.node.fired.length⟩ := rfl
  clear_value s₄
  have h₅ := AskState.step_accept firstResponseCodec true hr₀ rfl rfl hx₀ hqueue hanswers
  generalize hs₅ : AskState.setPhase _ 0 _ _ = s₅ at h₅
  have hrequests₅ : s₅.requests = Function.update s₄.requests 0
      (some { s₁.lookedUp lookedUpKey n true 0 with
        phase := .closing (some ⟨0, n, emptyResponse 0⟩) .quitting }) := by
    rw [← hs₅]
    exact AskState.requests_setPhase
  have hnode₅ : s₅.node = s₄.node := by
    rw [← hs₅]
    exact AskState.node_setPhase
  -- and disconnects
  have hr₅ : s₅.requests 0 = _ := (congrFun hrequests₅ 0).trans (Function.update_self _ _ _)
  obtain ⟨s₆, h₆, hrequests₆, hnode₆⟩ := AskState.exec_removing hr₅ rfl
    (by rw [hnode₅]; exact hentry₄)
    (show firstResponseCodec.rawBytes (.quit (closingQuit (some _))) = .ok [3] from rfl)
  have hrun : exec (AskState.step firstResponseCodec) (.init ourPeerId) (missionAccomplished n) =
      some s₆ := by
    refine exec_cons_eq_some.mpr ⟨s₁, h₁, ?_⟩
    rw [List.append_assoc, List.append_assoc, exec_append_of h₂, exec_append_of h₃,
      exec_append_of h₄]
    exact exec_cons_eq_some.mpr ⟨s₅, h₅, h₆⟩
  -- the second waits
  have hr₆ : s₆.requests 1 = some (s₂.lookedUp lookedUpKey n false 0) := by
    rw [hrequests₆, Function.update_of_ne one_ne_zero, hrequests₅,
      Function.update_of_ne one_ne_zero, hr₁]
  have hfired₆ : s₆.node.fired = [(n, emptyResponse 0)] := by
    rw [hnode₆, hnode₅]
    exact hfired₄
  have hne : (1 : UInt32) ≠ 0 := by decide
  refine ⟨s₆, hrun, fun hserved => ?_⟩
  rcases hserved 1 _ hr₆ rfl ⟨rfl, rfl⟩ with hanswered | ⟨w, peer, -, hn, -⟩
  · obtain ⟨x, -, j, p, -, hget, hid⟩ := (AskState.answered_iff (.exec hrun) hr₆ rfl).mp hanswered
    rw [hfired₆] at hget
    have hp := List.mem_of_getElem? hget
    rw [List.mem_singleton, Prod.mk.injEq] at hp
    rw [hp.2] at hid
    exact hne (eq_of_idOf_emptyResponse hid)
  · rw [hnode₆, getElem?_removePeer] at hn
    cases (if_pos rfl).symm.trans hn

/-- **A lookup that is done leaves another one behind.** -/
theorem lookup_is_left_behind :
    ∃ s, exec (AskState.step firstResponseCodec) (.init ⟨realSha256 []⟩)
      (missionAccomplished ⟨realSha256 [1]⟩) = some s ∧ ¬ s.LookupsServed :=
  exec_missionAccomplished ⟨realSha256 []⟩ ⟨realSha256 [1]⟩

/-- The peer was removed while the other one waited. -/
theorem lookups_served_iff_answerable_missionAccomplished :
    ¬ Meets (AskState.step firstResponseCodec) (AskState.Answerable firstResponseCodec)
      (.init ⟨realSha256 []⟩) (missionAccomplished ⟨realSha256 [1]⟩) := by
  obtain ⟨s, hrun, hbad⟩ := exec_missionAccomplished ⟨realSha256 []⟩ ⟨realSha256 [1]⟩
  rw [← lookups_served_iff_answerable _ _ hrun]
  intro hall
  exact hbad (hall.last hrun)

end Tewta
