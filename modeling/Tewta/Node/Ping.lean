import Tewta.Hash
import Tewta.Node.Requests.Runs

/-!
# Pings

A ping listens only after it has sent its packet, where a lookup and a discovery listen
first.  A Pong that is handled in between reaches no receiver, the ping waits until its
time is over, and the periodic one disconnects the peer.

`answered_pings_kept_iff_heard` says that this is the only way a ping that was
answered is given up.
-/

namespace Tewta

open Broadcast NodeState Transition

/-- An answered ping is not given up: when its time was over, no Pong to it had been
handled since it was written. -/
def Request.Kept (fired : List (PeerID × Packet)) (req : Request) : Prop :=
  ∀ w t, req.question = .ping → req.sent = some w → w.stream.isSome = true →
    req.timedOut = some t → ∀ j p, w.after ≤ j → j < t → fired[j]? = some (req.peerId, p) →
      req.topic.idOf p ≠ some req.id

namespace AskState

/-- No ping that was answered has been given up. -/
def PingsKept (s : AskState) : Prop :=
  ∀ r req, s.requests r = some req → req.Kept s.node.fired

/-- The time of a ping is over: no Pong to it was handled between the write of its
packet and the listening. -/
def Heard (s : AskState) : AskLabel → Prop
  | .timeout r => ∀ req w x, s.requests r = some req → req.sent = some w →
      w.stream.isSome = true → req.listening = some x →
      ∀ j p, w.after ≤ j → j < x.after → s.node.fired[j]? = some (req.peerId, p) →
        req.topic.idOf p ≠ some req.id
  | _ => True

end AskState

/-! ### One ping -/

/-- A request that was given up is over, and was not answered in time. -/
structure Request.Timely (fired : List (PeerID × Packet)) (req : Request) : Prop where
  ended : ∀ t, req.timedOut = some t → t ≤ fired.length ∧ req.phase ≠ .asking
  kept : req.Kept fired

namespace Request.Timely

variable {fired : List (PeerID × Packet)} {req req' : Request}

theorem of_none (h : req.timedOut = none) : req.Timely fired := by
  constructor
  · intro t ht
    rw [h] at ht
    cases ht
  · intro w t _ _ _ ht
    rw [h] at ht
    cases ht

theorem of_asking (h : req.Timely fired) (hasking : req.phase = .asking)
    (heq : req'.timedOut = req.timedOut) : req'.Timely fired := by
  refine of_none ?_
  cases ht : req.timedOut with
  | none => exact heq.trans ht
  | some t => exact absurd hasking (h.ended t ht).2

theorem setPhase (h : req.Timely fired) {phase : Phase} (hphase : phase ≠ .asking) :
    Request.Timely fired { req with phase } :=
  ⟨fun t ht => ⟨(h.ended t ht).1, hphase⟩, h.kept⟩

theorem fire (h : req.Timely fired) (event : PeerID × Packet) :
    req.Timely (fired ++ [event]) := by
  constructor
  · intro t ht
    obtain ⟨hle, hphase⟩ := h.ended t ht
    refine ⟨hle.trans ?_, hphase⟩
    rw [List.length_append]
    exact Nat.le_add_right _ _
  · intro w t hping hw hsome ht j p hj hlt hfired
    have hold : j < fired.length := hlt.trans_le (h.ended t ht).1
    rw [List.getElem?_append_left hold] at hfired
    exact h.kept w t hping hw hsome ht j p hj hlt hfired

end Request.Timely

/-! ### All pings -/

namespace AskState

variable {codec : Codec Bytes} {s s' : AskState}

def Timely (s : AskState) : Prop := ∀ r req, s.requests r = some req → req.Timely s.node.fired

theorem Timely.pingsKept (h : s.Timely) : s.PingsKept := fun r req hr => (h r req hr).kept

theorem Timely.own (h : s.Timely) {r : ℕ} {req' : Request}
    (hrequests : s'.requests = Function.update s.requests r (some req'))
    (hfired : s'.node.fired = s.node.fired) (hreq' : req'.Timely s.node.fired) : s'.Timely := by
  intro r₁ req₁ hr₁
  rw [hrequests] at hr₁
  rw [hfired]
  rcases update_eq_cases hr₁ with ⟨-, heq⟩ | ⟨-, hr₁⟩
  · obtain rfl := Option.some.inj heq
    exact hreq'
  · exact h r₁ req₁ hr₁

/-- A ping that nothing waits for, and that has missed nothing, was not answered. -/
theorem kept_of_heard (inv : AskInv s) {r : ℕ} {req : Request} {x : Listening}
    (hr : s.requests r = some req) (hasking : req.phase = .asking) (hx : req.listening = some x)
    (hqueue : (s.listeners req.topic).queue x.receiver = []) (hheard : s.Heard (.timeout r))
    {phase : Phase} : Request.Kept s.node.fired
      { req with phase, timedOut := some s.node.fired.length } := by
  intro w t _ hw hsome ht j p hj _ hfired hid
  by_cases hlt : j < x.after
  · exact hheard req w x hr hw hsome hx j p hj hlt hfired hid
  · have hmem := (inv.sound r req hr).complete hasking x hx j p (Nat.le_of_not_lt hlt) hfired hid
    rw [hqueue] at hmem
    cases hmem

/-- **A step that misses nothing** gives up no ping that was answered. -/
theorem Timely.step (inv : AskInv s) (h : s.Timely) {l : AskLabel} (hheard : s.Heard l)
    (hstep : s.step codec l = some s') : s'.Timely := by
  cases step_cases hstep with
  | @node l node hnode =>
    intro r req hr
    rw [requests_afterNode] at hr
    rw [node_afterNode]
    rcases fired_step hnode with heq | ⟨t, n, stream, p, -, heq⟩
    · rw [heq]
      exact h r req hr
    · rw [heq]
      exact (h r req hr).fire (n, p)
  | ask => exact h.own rfl rfl (.of_none rfl)
  | listen hr hasking => exact h.own rfl rfl ((h _ _ hr).of_asking hasking rfl)
  | send hr hasking _ hnode =>
    exact h.own rfl (fired_sendPacket hnode) ((h _ _ hr).of_asking hasking rfl)
  | ignore => exact h
  | accept hr hasking =>
    exact h.own requests_setPhase (by rw [node_setPhase]; rfl) ((h _ _ hr).of_asking hasking rfl)
  | @close r req answer stage node next writes hr _ hsec =>
    refine h.own requests_setPhase ?_ ((h r req hr).setPhase ?_)
    · rw [node_setPhase]
      exact fired_disconnectSection hsec
    · cases next <;> simp
  | fail hr _ hphase _ =>
    refine h.own requests_setPhase (by rw [node_setPhase]) ((h _ _ hr).setPhase ?_)
    rcases hphase with rfl | rfl <;> simp
  | @timeout r req x hr _ hasking _ hx hqueue =>
    refine h.own requests_setPhase (by rw [node_setPhase]) ⟨fun t ht => ?_,
      kept_of_heard inv hr hasking hx hqueue hheard⟩
    cases ht
    exact ⟨le_rfl, req.gaveUp_ne_asking⟩

/-- **A step that misses a Pong** gives up a ping that was answered. -/
theorem not_pingsKept_of_not_heard (inv : AskInv s) {l : AskLabel} (hbad : ¬ s.Heard l)
    (hstep : s.step codec l = some s') : ¬ s'.PingsKept := by
  cases step_cases hstep with
  | @timeout r req x hr hping hasking htodo hx hqueue =>
    obtain ⟨req', w, x', hr', hw, hsome, hx', j, p, hj, hlt, hfired, hid⟩ : ∃ req' w x',
        s.requests r = some req' ∧ req'.sent = some w ∧ w.stream.isSome = true ∧
        req'.listening = some x' ∧ ∃ j p, w.after ≤ j ∧ j < x'.after ∧
          s.node.fired[j]? = some (req'.peerId, p) ∧ req'.topic.idOf p = some req'.id := by
      simpa only [Heard, not_forall, exists_prop, ne_eq, not_not] using hbad
    obtain rfl : req = req' := Option.some.inj (hr.symm.trans hr')
    have hle := ((inv.sound r req hr).receiver x' hx').2
    intro hkept
    refine hkept r { req with phase := req.gaveUp, timedOut := some s.node.fired.length } ?_ w _
      hping hw hsome rfl j p hj (hlt.trans_le hle) ?_ hid
    · rw [requests_setPhase]
      exact Function.update_self _ _ _
    · rw [node_setPhase]
      exact hfired
  | fail _ _ _ hl =>
    rcases hl with rfl | ⟨writes, rfl⟩ <;> exact absurd (by trivial) hbad
  | _ => exact absurd (by trivial) hbad

end AskState

/-- **No ping that was answered is given up, exactly as long as no Pong comes between the
write of a Ping and the listening** of a ping whose time is then over. -/
theorem answered_pings_kept_iff_heard (codec : Codec Bytes) (ourPeerId : PeerID)
    {labels : List AskLabel} {s : AskState}
    (hrun : exec (AskState.step codec) (.init ourPeerId) labels = some s) :
    Always (AskState.step codec) AskState.PingsKept (.init ourPeerId) labels ↔
      Meets (AskState.step codec) AskState.Heard (.init ourPeerId) labels := by
  have hinit : (AskState.init ourPeerId).Timely := by
    intro r req hr
    cases hr
  refine always_iff_meets (I := fun s => AskInv s ∧ s.Timely) ?_ ?_ ?_ hrun
    ⟨.init ourPeerId, hinit⟩
  · intro s l t ⟨inv, h⟩ hheard hl
    exact ⟨inv.step hl, h.step inv hheard hl⟩
  · intro s ⟨_, h⟩
    exact h.pingsKept
  · intro s l t ⟨inv, _⟩ hbad hl
    exact AskState.not_pingsKept_of_not_heard inv hbad hl

/-! ### A Pong that comes at once -/

/-- The packets of a ping whose time is over. -/
def pingCodec : Codec Bytes :=
  listCodec [.ping ⟨0⟩, .pong ⟨0⟩, .quit (closingQuit none)]

/-- A peer answers a ping before the ping listens. -/
def promptPong (n : PeerID) : List AskLabel :=
  .node (.insert n "local-1") :: .ask 0 .ping n true :: .run 0 true ::
    (AskState.respond 0 0 [1] ++ [.run 0 true, .timeout 0, .run 0 true, .run 0 true])

/-- The ping of such a run, at its end. -/
def missedPong (n : PeerID) (phase : Phase) : Request where
  question := .ping
  peerId := n
  closes := true
  ticket := 0
  todo := []
  listening := some ⟨0, 1⟩
  sent := some ⟨0, some 0⟩
  timedOut := some 1
  phase := phase

theorem exec_promptPong (ourPeerId n : PeerID) :
    ∃ s, exec (AskState.step pingCodec) (.init ourPeerId) (promptPong n) = some s ∧
      s.requests 0 = some (missedPong n (.closing none .announcing)) ∧
      s.node.fired = [(n, .pong ⟨0⟩)] ∧ s.node.pool.connections[n]? = none := by
  let s₁ : AskState := { AskState.init ourPeerId with node := connected pingCodec ourPeerId n }
  have hentry : s₁.node.pool.connections[n]? = some ⟨"local-1", 0, none, 0⟩ :=
    getElem?_connected pingCodec ourPeerId n
  obtain ⟨htask, hin, hopen, hfired⟩ := connected_spec pingCodec ourPeerId n
  have h₁ : (AskState.init ourPeerId).step pingCodec (.node (.insert n "local-1")) = some s₁ :=
    AskState.step_insert pingCodec ourPeerId n
  -- the ping is written
  let asked : Request := { missedPong n .asking with
    todo := [.send, .listen], listening := none, sent := none, timedOut := none }
  let s₂ : AskState := { s₁ with counters := Function.update s₁.counters .pong 1 }.setRequest 0 asked
  have h₂ : s₁.step pingCodec (.ask 0 .ping n true) = some s₂ := rfl
  have hr₂ : s₂.requests 0 = some asked := rfl
  have hlength : s₂.node.fired.length = 0 := congrArg List.length hfired
  let written : Request := { asked with todo := [.listen], sent := some ⟨0, some 0⟩ }
  let s₃ : AskState := { s₂ with node := s₂.node.wrote 0 (.ping ⟨0⟩) }.setRequest 0 written
  have h₃ : s₂.step pingCodec (.run 0 true) = some s₃ :=
    (AskState.step_send hr₂ rfl rfl hentry rfl).trans (congrArg (fun k =>
      some ({ s₂ with node := s₂.node.wrote 0 (.ping ⟨0⟩) }.setRequest 0
        { asked with todo := [.listen], sent := some ⟨k, some 0⟩ })) hlength)
  -- the Pong finds no receiver
  let s₄ := s₃.afterRespond [] n (.pong ⟨0⟩)
  have h₄ : exec (AskState.step pingCodec) s₃ (AskState.respond 0 0 [1]) = some s₄ :=
    AskState.exec_respond (s := s₃) hfired (by decide) rfl htask hin hopen (fun _ _ _ => rfl)
  have hr₄ : s₄.requests 0 = some written := rfl
  let waiting : Request := { missedPong n .asking with timedOut := none }
  let s₅ : AskState := (s₄.setListeners .pong (s₄.listeners .pong).listen).setRequest 0 waiting
  have h₅ : s₄.step pingCodec (.run 0 true) = some s₅ :=
    AskState.step_listen pingCodec true hr₄ rfl rfl
  -- its time is over
  have hr₅ : s₅.requests 0 = some waiting := rfl
  let s₆ := s₅.setPhase 0 (missedPong n .asking) (.closing none .quitting)
  have h₆ : s₅.step pingCodec (.timeout 0) = some s₆ :=
    AskState.step_timeout pingCodec hr₅ rfl rfl rfl rfl rfl
  -- the peer is told, and removed
  have hr₆ : s₆.requests 0 = some (missedPong n (.closing none .quitting)) := rfl
  have hentry₆ : s₆.node.pool.connections[n]? = some ⟨"local-1", 0, none, 0⟩ := hentry
  have hfired₆ : s₆.node.fired = [(n, .pong ⟨0⟩)] := rfl
  obtain ⟨s₇, h₇, hrequests, hnode⟩ := AskState.exec_removing hr₆ rfl hentry₆
    (show pingCodec.rawBytes (.quit (closingQuit none)) = .ok [2] from rfl)
  refine ⟨s₇, ?_, ?_, ?_, ?_⟩
  · refine exec_cons_eq_some.mpr ⟨s₁, h₁, exec_cons_eq_some.mpr ⟨s₂, h₂,
      exec_cons_eq_some.mpr ⟨s₃, h₃, ?_⟩⟩⟩
    rw [exec_append_of h₄]
    exact exec_cons_eq_some.mpr ⟨s₅, h₅, exec_cons_eq_some.mpr ⟨s₆, h₆, h₇⟩⟩
  · rw [hrequests]
    exact Function.update_self _ _ _
  · rw [hnode]
    exact hfired₆
  · rw [hnode, getElem?_removePeer]
    exact if_pos rfl

/-- A peer that has answered is given up. -/
theorem not_pingsKept_of_missedPong {s : AskState} {n : PeerID} {phase : Phase}
    (hr : s.requests 0 = some (missedPong n phase)) (hfired : s.node.fired = [(n, .pong ⟨0⟩)]) :
    ¬ s.PingsKept := by
  intro hkept
  have hkept := hkept 0 _ hr ⟨0, some 0⟩ 1 rfl rfl rfl rfl 0 (.pong ⟨0⟩) le_rfl zero_lt_one
  rw [hfired] at hkept
  exact hkept rfl rfl

/-- **A peer that answers a ping at once is disconnected.** -/
theorem prompt_peer_is_disconnected :
    ∃ s, exec (AskState.step pingCodec) (.init ⟨realSha256 []⟩) (promptPong ⟨realSha256 [1]⟩) =
        some s ∧ ¬ s.PingsKept ∧ s.node.pool.connections[(⟨realSha256 [1]⟩ : PeerID)]? = none := by
  obtain ⟨s, hrun, hr, hfired, hgone⟩ := exec_promptPong ⟨realSha256 []⟩ ⟨realSha256 [1]⟩
  exact ⟨s, hrun, not_pingsKept_of_missedPong hr hfired, hgone⟩

/-- Its Pong came between the write and the listening. -/
theorem answered_pings_kept_iff_heard_promptPong :
    ¬ Meets (AskState.step pingCodec) AskState.Heard (.init ⟨realSha256 []⟩)
      (promptPong ⟨realSha256 [1]⟩) := by
  obtain ⟨s, hrun, hr, hfired, -⟩ := exec_promptPong ⟨realSha256 []⟩ ⟨realSha256 [1]⟩
  rw [← answered_pings_kept_iff_heard _ _ hrun]
  intro hall
  exact not_pingsKept_of_missedPong hr hfired (hall.last hrun)

end Tewta
